import FlexConfig.Foundation.Concurrent

/-! # Disciplines of routines

An observer of a routine keeps a note of the answers it was given, and says which calls it may make
by this note (`Discipline`). A routine that obeys the discipline, whatever it is answered of what
is possible, obeys it among others too, since nobody but the thread itself changes its note.
-/

namespace Concurrent

variable {Op : Type} {Answer : Op → Type} {Note Other α β ε σ ι : Type}

/-- What an observer notes of the answers to a routine, which calls it allows by its note, and
which answers are possible. -/
structure Discipline (Op : Type) (Answer : Op → Type) (Note : Type) where
  record : Note → (op : Op) → Answer op → Note
  allowed : Note → Op → Prop
  possible : (op : Op) → Answer op → Prop

namespace Routine

variable (rule : Discipline Op Answer Note)

/-- A routine makes allowed calls only, and ends with a value and a note as is said. -/
def Obeys : Note → Routine Op Answer α → (Note → α → Prop) → Prop
  | note, .done value, ends => ends note value
  | note, .call op next, ends =>
    rule.allowed note op ∧ ∀ answer, rule.possible op answer →
      Obeys (rule.record note op answer) (next answer) ends

variable {rule} {note : Note}

theorem Obeys.imp {routine : Routine Op Answer α} {ends further : Note → α → Prop}
    (obeys : routine.Obeys rule note ends)
    (implies : ∀ last value, ends last value → further last value) :
    routine.Obeys rule note further := by
  induction routine generalizing note with
  | done value => exact implies note value obeys
  | call op next ih =>
      exact ⟨obeys.1, fun answer possible => ih answer (obeys.2 answer possible)⟩

theorem Obeys.bind {routine : Routine Op Answer α} {next : α → Routine Op Answer β}
    {ends : Note → β → Prop}
    (first : routine.Obeys rule note fun last value => (next value).Obeys rule last ends) :
    (routine >>= next).Obeys rule note ends := by
  induction routine generalizing note with
  | done value => exact first
  | call op rest ih =>
      exact ⟨first.1, fun answer possible => ih answer (first.2 answer possible)⟩

theorem obeys_perform {op : Op} {ends : Note → Answer op → Prop} (allowed : rule.allowed note op)
    (after : ∀ answer, rule.possible op answer → ends (rule.record note op answer) answer) :
    (perform op : Routine Op Answer _).Obeys rule note ends := ⟨allowed, after⟩

/-- A loop whose body leads from what holds before an item to what holds before the next one. -/
theorem Obeys.forEach {body : β → Routine Op Answer PUnit} (invariant : List β → Note → Prop)
    (each : ∀ {item rest note}, invariant (item :: rest) note →
      (body item).Obeys rule note fun last _ => invariant rest last)
    {items : List β} (start : invariant items note) :
    (forEach body items).Obeys rule note fun last _ => invariant [] last := by
  induction items generalizing note with
  | nil => exact start
  | cons item rest ih => exact Obeys.bind ((each start).imp fun _ _ holds => ih holds)

/-- What obeys one discipline obeys another one that allows it as much and admits no more, where
the notes of the two stay related. -/
theorem Obeys.transfer {routine : Routine Op Answer α} {other : Discipline Op Answer Other}
    {ends : Note → α → Prop} (relates : Note → Other → Prop)
    (allows : ∀ {here there op}, relates here there → rule.allowed here op → other.allowed there op)
    (admits : ∀ {op answer}, other.possible op answer → rule.possible op answer)
    (records : ∀ {here there op answer}, relates here there →
      relates (rule.record here op answer) (other.record there op answer))
    (obeys : routine.Obeys rule note ends) {there : Other} (related : relates note there) :
    routine.Obeys other there fun last value => ∃ here, relates here last ∧ ends here value := by
  induction routine generalizing note there with
  | done value => exact ⟨note, related, obeys⟩
  | call op next ih =>
      exact ⟨allows related obeys.1, fun answer possible =>
        ih answer (obeys.2 answer (admits possible)) (records related)⟩

end Routine

section Pool

variable [DecidableEq ι] (rule : Discipline Op Answer Note) (initial : ι → Note)

/-- The notes on all threads: a new routine begins with a new note. -/
def Event.observe (notes : ι → Note) : Event ι Op Answer → ι → Note
  | .start thread _ => Function.update notes thread (initial thread)
  | .answer thread op reply => Function.update notes thread (rule.record (notes thread) op reply)
  | .raise thread _ => Function.update notes thread (initial thread)

/-- The note on a thread stays, begins anew, or records an answer to the thread. -/
theorem Event.observe_cases (event : Event ι Op Answer) (notes : ι → Note) (thread : ι) :
    event.observe rule initial notes thread = notes thread ∨
      event.observe rule initial notes thread = initial thread ∨
        ∃ op reply, event = .answer thread op reply ∧
          event.observe rule initial notes thread = rule.record (notes thread) op reply := by
  cases event with
  | start other routine =>
      by_cases same : thread = other
      · exact .inr (.inl (same ▸ Function.update_self ..))
      · exact .inl (Function.update_of_ne same ..)
  | answer other op reply =>
      by_cases same : thread = other
      · subst same
        exact .inr (.inr ⟨op, reply, rfl, Function.update_self ..⟩)
      · exact .inl (Function.update_of_ne same ..)
  | raise other op =>
      by_cases same : thread = other
      · exact .inr (.inl (same ▸ Function.update_self ..))
      · exact .inl (Function.update_of_ne same ..)

/-- A thread makes a call, which returns or halts. -/
def Event.Calls (event : Event ι Op Answer) (thread : ι) (op : Op) : Prop :=
  (∃ reply, event = .answer thread op reply) ∨ event = .raise thread op

variable {rule initial} {may : ι → Routine Op Answer PUnit → Prop}
  {does : (op : Op) → EStateM ε σ (Answer op)} {survives : ι → ε → Prop}
  {pool next : Pool ι Op Answer σ} {event : Event ι Op Answer} {notes : ι → Note}

/-- All threads obey the discipline, each from its own note. -/
def Pool.Obey (rule : Discipline Op Answer Note) (pool : Pool ι Op Answer σ) (notes : ι → Note) :
    Prop :=
  ∀ thread, (pool.threads thread).Obeys rule (notes thread) fun _ _ => True

theorem Pool.Obey.resume (obey : pool.Obey rule notes) {thread : ι}
    {routine : Routine Op Answer PUnit} {shared : σ} {note : Note}
    (here : routine.Obeys rule note fun _ _ => True) :
    (pool.resume thread routine shared).Obey rule (Function.update notes thread note) := by
  intro other
  by_cases same : other = thread
  · rw [same, resume_same, Function.update_self]
    exact here
  · rw [resume_other _ same, Function.update_of_ne same]
    exact obey other

/-- Threads that obey their discipline still do after a step. -/
theorem Pool.Step.obey
    (starts : ∀ thread routine, may thread routine →
      routine.Obeys rule (initial thread) fun _ _ => True)
    (possible : ∀ op state answer last, does op state = .ok answer last → rule.possible op answer)
    (obey : pool.Obey rule notes) (step : pool.Step may does survives event next) :
    next.Obey rule (event.observe rule initial notes) := by
  cases step with
  | start idle begins => exact obey.resume (starts _ _ begins)
  | @answer thread op rest answer shared calls returns =>
      have here := obey thread
      rw [calls] at here
      exact obey.resume (here.2 answer (possible op _ _ _ returns))
  | raise calls halts goesOn => exact obey.resume trivial

/-- An answer is that of the operation in the state before the step. -/
theorem Pool.Step.returns {thread : ι} {op : Op} {reply : Answer op}
    (step : pool.Step may does survives (.answer thread op reply) next) :
    does op pool.shared = .ok reply next.shared := by
  cases step with
  | answer _ returns => exact returns

/-- What a thread calls is allowed by its note. -/
theorem Pool.Step.allowed (obey : pool.Obey rule notes)
    (step : pool.Step may does survives event next) {thread : ι} {op : Op}
    (calling : event.Calls thread op) : rule.allowed (notes thread) op := by
  rcases calling with ⟨answer, rfl⟩ | rfl
  · cases step with
    | answer calls _ =>
        have here := obey thread
        rw [calls] at here
        exact here.1
  · cases step with
    | raise calls _ _ =>
        have here := obey thread
        rw [calls] at here
        exact here.1

end Pool

section Watch

variable {State Label Record : Type*}

/-- Keep a record along a run. -/
def watch (note : Record → State → Label → State → Record) :
    (before : State) → (record : Record) → List (Label × State) → List (Label × (State × Record))
  | _, _, [] => []
  | before, record, (label, after) :: rest =>
    (label, after, note record before label after) ::
      watch note after (note record before label after) rest

theorem along_watch {step : State → Label → State → Prop}
    {note : Record → State → Label → State → Record} {first : State} {record : Record}
    {trail : List (Label × State)} (run : Along step first trail) :
    Along (Watched step note) (first, record) (watch note first record trail) := by
  induction trail generalizing first record with
  | nil => exact trivial
  | cons head rest ih => exact ⟨⟨run.1, rfl⟩, ih run.2⟩

/-- What holds along a watched run whatever is noted holds along the run. -/
theorem along_of_watch {shows : State → Label → State → Prop}
    {note : Record → State → Label → State → Record} {first : State} {record : Record}
    {trail : List (Label × State)}
    (along : Along (fun before label after => shows before.1 label after.1) (first, record)
      (watch note first record trail)) : Along shows first trail := by
  induction trail generalizing first record with
  | nil => exact trivial
  | cons head rest ih => exact ⟨along.1, ih along.2⟩

end Watch

end Concurrent
