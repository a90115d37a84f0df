import Mathlib.Logic.Function.Basic
import Mathlib.Logic.Relation

/-! # Routines made of critical sections

A routine of a concurrent program is a tree of calls: it calls an operation, which runs to
its end without interference, and goes on with the answer. What an operation does to the
shared state is a procedure `EStateM ε σ`. The same routine is run alone (`Routine.run`),
or together with others, each of which may be the next to make its call (`Pool.Step`).

What a routine has yet to do is not seen in the shared state: one that has left a critical
section with a list of things to do will do them, whatever becomes of the state. A routine
avoids a call (`Routine.Avoids`) when only an answer still to come can lead it there.
-/

namespace Concurrent

/-- A routine that calls operations and returns a value. -/
inductive Routine (Op : Type) (Answer : Op → Type) (α : Type) where
  | done (value : α)
  | call (op : Op) (next : Answer op → Routine Op Answer α)

variable {Op : Type} {Answer : Op → Type} {α β ε σ : Type}

namespace Routine

/-- Go on with the value of a routine. -/
def bind : Routine Op Answer α → (α → Routine Op Answer β) → Routine Op Answer β
  | .done value, next => next value
  | .call op rest, next => .call op fun answer => (rest answer).bind next

instance : Monad (Routine Op Answer) where
  pure := .done
  bind := bind

@[simp] theorem pure_bind (value : α) (next : α → Routine Op Answer β) :
    (pure value >>= next : Routine Op Answer β) = next value := rfl

@[simp] theorem done_bind (value : α) (next : α → Routine Op Answer β) :
    (Routine.done value >>= next) = next value := rfl

@[simp] theorem call_bind (op : Op) (rest : Answer op → Routine Op Answer α)
    (next : α → Routine Op Answer β) :
    (Routine.call op rest >>= next) = .call op fun answer => rest answer >>= next := rfl

/-- Call one operation and return its answer. -/
def perform (op : Op) : Routine Op Answer (Answer op) := .call op .done

/-- Run a routine for each item of a list. -/
def forEach (body : β → Routine Op Answer PUnit) : List β → Routine Op Answer PUnit
  | [] => .done ⟨⟩
  | item :: rest => body item >>= fun _ => forEach body rest

/-- Run a routine alone. -/
def run (does : (op : Op) → EStateM ε σ (Answer op)) : Routine Op Answer α → EStateM ε σ α
  | .done value => pure value
  | .call op next => does op >>= fun answer => (next answer).run does

section Run

variable {does : (op : Op) → EStateM ε σ (Answer op)}

theorem run_bind (routine : Routine Op Answer α) (next : α → Routine Op Answer β) :
    (routine >>= next).run does = routine.run does >>= fun value => (next value).run does := by
  induction routine with
  | done value => rfl
  | call op rest ih =>
      rw [call_bind, run, run, bind_assoc]
      exact congrArg (does op >>= ·) (funext ih)

/-- A loop over distinct items that are ready, and stay so while others are handled, handles them
one after another. -/
theorem steps_of_forEach {step : σ → σ → Prop} (ready : β → σ → Prop) (kept : σ → Prop)
    {body : β → Routine Op Answer PUnit} {items : List β} {state last : σ}
    (handles : ∀ {item before after}, ready item before →
      (body item).run does before = .ok PUnit.unit after →
        Relation.ReflTransGen step before after ∧ (kept before → kept after) ∧
          ∀ other, other ≠ item → ready other before → ready other after)
    (distinct : items.Nodup) (start : ∀ item ∈ items, ready item state) (also : kept state)
    (ran : (forEach body items).run does state = .ok PUnit.unit last) :
    Relation.ReflTransGen step state last ∧ kept last := by
  induction items generalizing state with
  | nil =>
      cases ran
      exact ⟨Relation.ReflTransGen.refl, also⟩
  | cons item rest ih =>
      obtain ⟨fresh, restDistinct⟩ := List.nodup_cons.mp distinct
      rw [forEach, run_bind] at ran
      cases here : (body item).run does state with
      | error reason between =>
          have halted : ((body item).run does >>= fun _ => (forEach body rest).run does) state =
              .error reason between := by
            change EStateM.bind _ _ state = _
            unfold EStateM.bind
            rw [here]
          cases halted.symm.trans ran
      | ok value between =>
          have goesOn : ((body item).run does >>= fun _ => (forEach body rest).run does) state =
              (forEach body rest).run does between := by
            change EStateM.bind _ _ state = _
            unfold EStateM.bind
            rw [here]
          obtain ⟨stepped, stays, frame⟩ := handles (start item List.mem_cons_self) here
          obtain ⟨others, held⟩ := ih restDistinct
            (fun other member => frame other (fun same => fresh (same ▸ member))
              (start other (List.mem_cons_of_mem _ member)))
            (stays also) (goesOn.symm.trans ran)
          exact ⟨stepped.trans others, held⟩

/-- What holds of the items that are done is kept while a loop goes through the others. -/
theorem invariant_of_forEach (invariant : List β → σ → Prop)
    {body : β → Routine Op Answer PUnit} {items : List β} {state last : σ}
    (handles : ∀ {done item rest before after}, items = done ++ item :: rest →
      invariant done before → (body item).run does before = .ok PUnit.unit after →
        invariant (done ++ [item]) after)
    (start : invariant [] state)
    (ran : (forEach body items).run does state = .ok PUnit.unit last) : invariant items last := by
  suffices general : ∀ rest done state, items = done ++ rest → invariant done state →
      (forEach body rest).run does state = .ok PUnit.unit last → invariant items last from
    general items [] state rfl start ran
  intro rest
  induction rest with
  | nil =>
      intro done state split holds ran
      cases ran
      rw [split, List.append_nil]
      exact holds
  | cons item rest ih =>
      intro done state split holds ran
      rw [forEach, run_bind] at ran
      cases here : (body item).run does state with
      | error reason between =>
          change EStateM.bind _ _ state = _ at ran
          unfold EStateM.bind at ran
          rw [here] at ran
          cases ran
      | ok value between =>
          change EStateM.bind _ _ state = _ at ran
          unfold EStateM.bind at ran
          rw [here] at ran
          refine ih (done ++ [item]) between ?_ (handles split holds here) ran
          rw [split, List.append_assoc]
          rfl

theorem run_perform (op : Op) : (perform op : Routine Op Answer _).run does = does op :=
  bind_pure (does op)

end Run

/-- The next call of a routine, if it has one. -/
def Calls (wanted : Op → Prop) : Routine Op Answer α → Prop
  | .done _ => False
  | .call op _ => wanted op

instance (wanted : Op → Prop) [DecidablePred wanted] :
    (routine : Routine Op Answer α) → Decidable (routine.Calls wanted)
  | .done _ => isFalse id
  | .call op _ => inferInstanceAs (Decidable (wanted op))

/-- A routine comes to no call of a kind, unless an answer it is given leads there. -/
def Avoids (wanted : Op → Prop) (leads : (op : Op) → Answer op → Prop) :
    Routine Op Answer α → Prop
  | .done _ => True
  | .call op next => ¬ wanted op ∧ ∀ answer, ¬ leads op answer → (next answer).Avoids wanted leads

section Avoids

variable {wanted : Op → Prop} {leads : (op : Op) → Answer op → Prop}

theorem Avoids.bind {routine : Routine Op Answer α} {next : α → Routine Op Answer β}
    (first : routine.Avoids wanted leads) (rest : ∀ value, (next value).Avoids wanted leads) :
    (routine >>= next).Avoids wanted leads := by
  induction routine with
  | done value => exact rest value
  | call op after ih => exact ⟨first.1, fun answer unled => ih answer (first.2 answer unled)⟩

theorem avoids_perform {op : Op} (other : ¬ wanted op) :
    (perform op : Routine Op Answer _).Avoids wanted leads := ⟨other, fun _ _ => trivial⟩

theorem Avoids.forEach {body : β → Routine Op Answer PUnit} {items : List β}
    (each : ∀ item ∈ items, (body item).Avoids wanted leads) :
    (forEach body items).Avoids wanted leads := by
  induction items with
  | nil => exact trivial
  | cons item rest ih =>
      refine (each item List.mem_cons_self).bind fun _ => ih fun other member => ?_
      exact each other (List.mem_cons_of_mem _ member)

theorem Avoids.ite {condition : Prop} [Decidable condition] {routine other : Routine Op Answer α}
    (first : routine.Avoids wanted leads) (second : other.Avoids wanted leads) :
    (if condition then routine else other).Avoids wanted leads := by
  by_cases holds : condition
  · rw [if_pos holds]
    exact first
  · rw [if_neg holds]
    exact second

theorem Avoids.not_calls {routine : Routine Op Answer α} (avoids : routine.Avoids wanted leads) :
    ¬ routine.Calls wanted := by
  cases routine with
  | done value => exact id
  | call op next => exact avoids.1

end Avoids

end Routine

section Pool

variable {ι : Type} [DecidableEq ι]

/-- Threads that share a state. A thread that is done is idle. -/
structure Pool (ι Op : Type) (Answer : Op → Type) (σ : Type) where
  shared : σ
  threads : ι → Routine Op Answer PUnit

/-- What happens in one step of a pool: a thread starts a routine, makes its next call, or ends
with its call. -/
inductive Event (ι Op : Type) (Answer : Op → Type) where
  | start (thread : ι) (routine : Routine Op Answer PUnit)
  | answer (thread : ι) (op : Op) (answer : Answer op)
  | raise (thread : ι) (op : Op)

/-- Let a thread go on with a routine, in a shared state. -/
def Pool.resume (pool : Pool ι Op Answer σ) (thread : ι) (routine : Routine Op Answer PUnit)
    (shared : σ) : Pool ι Op Answer σ :=
  ⟨shared, Function.update pool.threads thread routine⟩

/-- One step of a pool: `may` tells which routines a thread starts, `does` what the operations
do, and `survives` which halts of an operation end only the thread that called it. -/
inductive Pool.Step (may : ι → Routine Op Answer PUnit → Prop)
    (does : (op : Op) → EStateM ε σ (Answer op)) (survives : ι → ε → Prop) :
    Pool ι Op Answer σ → Event ι Op Answer → Pool ι Op Answer σ → Prop where
  | start {pool : Pool ι Op Answer σ} {thread : ι} {routine : Routine Op Answer PUnit}
      (idle : pool.threads thread = .done ⟨⟩) (starts : may thread routine) :
      Step may does survives pool (.start thread routine) (pool.resume thread routine pool.shared)
  | answer {pool : Pool ι Op Answer σ} {thread : ι} {op : Op}
      {next : Answer op → Routine Op Answer PUnit} {answer : Answer op} {shared : σ}
      (calls : pool.threads thread = .call op next)
      (returns : does op pool.shared = .ok answer shared) :
      Step may does survives pool (.answer thread op answer)
        (pool.resume thread (next answer) shared)
  | raise {pool : Pool ι Op Answer σ} {thread : ι} {op : Op}
      {next : Answer op → Routine Op Answer PUnit} {reason : ε} {shared : σ}
      (calls : pool.threads thread = .call op next)
      (halts : does op pool.shared = .error reason shared) (goesOn : survives thread reason) :
      Step may does survives pool (.raise thread op) (pool.resume thread (.done ⟨⟩) shared)

namespace Pool

variable {may : ι → Routine Op Answer PUnit → Prop} {does : (op : Op) → EStateM ε σ (Answer op)}
  {survives : ι → ε → Prop} {pool next : Pool ι Op Answer σ} {event : Event ι Op Answer}

@[simp] theorem resume_shared (pool : Pool ι Op Answer σ) (thread : ι)
    (routine : Routine Op Answer PUnit) (shared : σ) :
    (pool.resume thread routine shared).shared = shared := rfl

@[simp] theorem resume_same (pool : Pool ι Op Answer σ) (thread : ι)
    (routine : Routine Op Answer PUnit) (shared : σ) :
    (pool.resume thread routine shared).threads thread = routine := Function.update_self ..

theorem resume_other (pool : Pool ι Op Answer σ) {thread other : ι} (differs : other ≠ thread)
    (routine : Routine Op Answer PUnit) (shared : σ) :
    (pool.resume thread routine shared).threads other = pool.threads other :=
  Function.update_of_ne differs ..

/-- A property each thread has of its routine is kept by the thread that moves. -/
theorem forall_threads_resume {P : ι → Routine Op Answer PUnit → Prop} {thread : ι}
    {routine : Routine Op Answer PUnit} {shared : σ} (all : ∀ other, P other (pool.threads other))
    (here : P thread routine) (other : ι) :
    P other ((pool.resume thread routine shared).threads other) := by
  by_cases same : other = thread
  · rw [same, resume_same]
    exact here
  · rw [resume_other _ same]
    exact all other

/-- As long as no answer leads there, all threads avoid a call that no routine begins with. -/
theorem Step.avoids {wanted : Op → Prop} {leads : (op : Op) → Answer op → Prop}
    (starts : ∀ thread routine, may thread routine → routine.Avoids wanted leads)
    (before : ∀ thread, (pool.threads thread).Avoids wanted leads)
    (step : pool.Step may does survives event next)
    (unled : ∀ thread op answer, event = .answer thread op answer → ¬ leads op answer) :
    ∀ thread, (next.threads thread).Avoids wanted leads := by
  cases step with
  | start idle may => exact forall_threads_resume before (starts _ _ may)
  | @answer thread op rest answer shared calls returns =>
      have avoids := before thread
      rw [calls] at avoids
      exact forall_threads_resume before (avoids.2 answer (unled thread op answer rfl))
  | raise calls halts goesOn => exact forall_threads_resume before trivial

end Pool

end Pool

section Along

variable {State Label Record : Type*}

/-- A property of steps holds along a run: from each state by a label to the next state. -/
def Along (P : State → Label → State → Prop) : (first : State) → List (Label × State) → Prop
  | _, [] => True
  | first, (label, next) :: rest => P first label next ∧ Along P next rest

instance Along.decidable {P : State → Label → State → Prop}
    [∀ before label after, Decidable (P before label after)] :
    (first : State) → (trail : List (Label × State)) → Decidable (Along P first trail)
  | _, [] => isTrue trivial
  | _, (_, next) :: rest =>
    have : Decidable (Along P next rest) := Along.decidable next rest
    instDecidableAnd

theorem Along.imp {P Q : State → Label → State → Prop} (implies : ∀ {before label after},
    P before label after → Q before label after) {first : State} {trail : List (Label × State)}
    (along : Along P first trail) : Along Q first trail := by
  induction trail generalizing first with
  | nil => exact trivial
  | cons head rest ih => exact ⟨implies along.1, ih along.2⟩

/-- A step and an observer who keeps a record of what has happened. -/
def Watched (step : State → Label → State → Prop) (note : Record → State → Label → State → Record) :
    State × Record → Label → State × Record → Prop :=
  fun before label after => step before.1 label after.1 ∧
    after.2 = note before.2 before.1 label after.1

/-- What the steps of a run preserve and show one by one holds along the run. -/
theorem along_of_invariant (invariant : State → Prop)
    {step guard shows : State → Label → State → Prop}
    (preserved : ∀ {before label after}, invariant before → step before label after →
      guard before label after → invariant after ∧ shows before label after)
    {first : State} {trail : List (Label × State)} (start : invariant first)
    (run : Along step first trail) (guarded : Along guard first trail) :
    Along shows first trail := by
  induction trail generalizing first with
  | nil => exact trivial
  | cons head rest ih =>
      obtain ⟨kept, shown⟩ := preserved start run.1 guarded.1
      exact ⟨shown, ih kept run.2 guarded.2⟩

/-- Where each step shows something, and with it keeps an invariant, exactly when it meets a guard,
a run shows it all along exactly when it meets the guard all along. -/
theorem along_iff_of_exact (invariant : State → Prop)
    {step guard shows : State → Label → State → Prop}
    (exact : ∀ {before label after}, invariant before → step before label after →
      (shows before label after ↔ guard before label after))
    (kept : ∀ {before label after}, invariant before → step before label after →
      shows before label after → invariant after)
    {first : State} {trail : List (Label × State)} (start : invariant first)
    (run : Along step first trail) : Along shows first trail ↔ Along guard first trail := by
  induction trail generalizing first with
  | nil => exact Iff.rfl
  | cons head rest ih =>
      have here := exact start run.1
      constructor
      · intro all
        exact ⟨here.mp all.1, (ih (kept start run.1 all.1) run.2).mp all.2⟩
      · intro guarded
        have shown := here.mpr guarded.1
        exact ⟨shown, (ih (kept start run.1 shown) run.2).mpr guarded.2⟩

/-- The run of a list of labels, up to the first step that cannot be made. -/
def follow (next : State → Label → Option State) : List Label → State → List (Label × State)
  | [], _ => []
  | label :: rest, state =>
    match next state label with
    | none => []
    | some after => (label, after) :: follow next rest after

theorem along_follow {next : State → Label → Option State} {step : State → Label → State → Prop}
    (sound : ∀ {before label after}, next before label = some after → step before label after)
    (labels : List Label) (first : State) : Along step first (follow next labels first) := by
  induction labels generalizing first with
  | nil => exact trivial
  | cons label rest ih =>
      unfold follow
      split
      · exact trivial
      · next after goesOn => exact ⟨sound goesOn, ih after⟩

/-- Make a step and note it. -/
def noting (next : State → Label → Option State)
    (note : Record → State → Label → State → Record) (before : State × Record) (label : Label) :
    Option (State × Record) :=
  (next before.1 label).map fun after => (after, note before.2 before.1 label after)

theorem watched_of_noting {next : State → Label → Option State}
    {step : State → Label → State → Prop} {note : Record → State → Label → State → Record}
    (sound : ∀ {before label after}, next before label = some after → step before label after)
    {before after : State × Record} {label : Label}
    (goesOn : noting next note before label = some after) :
    Watched step note before label after := by
  obtain ⟨state, made, rfl⟩ := Option.map_eq_some_iff.mp goesOn
  exact ⟨sound made, rfl⟩

end Along

section Play

variable {ι : Type} [DecidableEq ι] {may : ι → Routine Op Answer PUnit → Prop}
  {does : (op : Op) → EStateM ε σ (Answer op)} {survives : ι → ε → Prop}

/-- What a schedule lets a pool do next. -/
inductive Move (ι Op : Type) (Answer : Op → Type) where
  | start (thread : ι) (routine : Routine Op Answer PUnit)
  | go (thread : ι)

/-- Make a move, where the pool can. -/
def Pool.move (does : (op : Op) → EStateM ε σ (Answer op)) (survives : ι → ε → Prop)
    [∀ thread reason, Decidable (survives thread reason)] (pool : Pool ι Op Answer σ) :
    Move ι Op Answer → Option (Event ι Op Answer × Pool ι Op Answer σ)
  | .start thread routine =>
    match pool.threads thread with
    | .done _ => some (.start thread routine, pool.resume thread routine pool.shared)
    | .call _ _ => none
  | .go thread =>
    match pool.threads thread with
    | .done _ => none
    | .call op next =>
      match does op pool.shared with
      | .ok answer shared => some (.answer thread op answer, pool.resume thread (next answer) shared)
      | .error reason shared =>
        if survives thread reason then
          some (.raise thread op, pool.resume thread (.done ⟨⟩) shared)
        else none

/-- The run of a schedule, up to the first move the pool cannot make. -/
def Pool.play (does : (op : Op) → EStateM ε σ (Answer op)) (survives : ι → ε → Prop)
    [∀ thread reason, Decidable (survives thread reason)] :
    List (Move ι Op Answer) → Pool ι Op Answer σ → List (Event ι Op Answer × Pool ι Op Answer σ)
  | [], _ => []
  | move :: rest, pool =>
    match pool.move does survives move with
    | none => []
    | some (event, next) => (event, next) :: play does survives rest next

variable [∀ thread reason, Decidable (survives thread reason)]

theorem Pool.step_of_move {pool next : Pool ι Op Answer σ} {move : Move ι Op Answer}
    {event : Event ι Op Answer}
    (starts : ∀ {thread routine}, move = .start thread routine → may thread routine)
    (moved : pool.move does survives move = some (event, next)) :
    Pool.Step may does survives pool event next := by
  cases move with
  | start thread routine =>
      cases idle : pool.threads thread with
      | done value =>
          simp only [Pool.move, idle] at moved
          cases moved
          exact .start idle (starts rfl)
      | call op rest =>
          simp only [Pool.move, idle] at moved
          cases moved
  | go thread =>
      cases calls : pool.threads thread with
      | done value =>
          simp only [Pool.move, calls] at moved
          cases moved
      | call op rest =>
          cases ran : does op pool.shared with
          | ok answer shared =>
              simp only [Pool.move, calls, ran] at moved
              cases moved
              exact .answer calls ran
          | error reason shared =>
              by_cases goesOn : survives thread reason
              · simp only [Pool.move, calls, ran, if_pos goesOn] at moved
                cases moved
                exact .raise calls ran goesOn
              · simp only [Pool.move, calls, ran, if_neg goesOn] at moved
                cases moved

/-- A schedule that only starts what may be started gives a run. -/
theorem Pool.along_play {moves : List (Move ι Op Answer)} {pool : Pool ι Op Answer σ}
    (starts : ∀ {thread routine}, Move.start thread routine ∈ moves → may thread routine) :
    Along (Pool.Step may does survives) pool (Pool.play does survives moves pool) := by
  induction moves generalizing pool with
  | nil => exact trivial
  | cons move rest ih =>
      unfold Pool.play
      split
      · exact trivial
      · next event next moved =>
          refine ⟨step_of_move (fun same => starts ?_) moved,
            ih fun member => starts (List.mem_cons_of_mem _ member)⟩
          rw [same]
          exact List.mem_cons_self

end Play

end Concurrent
