import Mathlib.Logic.Relation

/-! # Procedures that keep the state they halt in

An imperative routine that may stop early is a procedure
`EStateM ε σ α`: it returns a value or halts with a reason in `ε`, and in both
cases leaves the state it has reached. Nothing is rolled back on the way out, so
what a caller observes after a failure is exactly what the routine had written
before it stopped.

The rules below are those by which callers reason: how a sequence returns or
halts, what a sequence leaves alone (`Procedure.Keeps`), what a compensated body
does (`Procedure.compensated`), and what a guarded run of steps preserves
(`Procedure.invariant_of_run`).
-/

namespace Procedure

universe u

variable {ε σ τ α β : Type u}

/-- The state a result carries, whether it is a value or a halt. -/
def final : EStateM.Result ε σ α → σ
  | .ok _ state => state
  | .error _ state => state

@[simp] theorem final_ok (value : α) (state : σ) :
    final (.ok value state : EStateM.Result ε σ α) = state := rfl

@[simp] theorem final_error (reason : ε) (state : σ) :
    final (.error reason state : EStateM.Result ε σ α) = state := rfl

/-- Run a computation that reads and writes no state. -/
def attempt (result : Except ε α) : EStateM ε σ α := fun state =>
  match result with
  | .ok value => .ok value state
  | .error reason => .error reason state

/-- Run a procedure on one component of the state. -/
def focus (get : σ → τ) (set : τ → σ → σ) (body : EStateM ε τ α) : EStateM ε σ α := fun state =>
  match body (get state) with
  | .ok value part => .ok value (set part state)
  | .error reason part => .error reason (set part state)

/-- Run a body and, when it halts for a compensated reason, run the compensation
from the state the body left and then halt for the same reason. A compensation
that itself halts decides the outcome. -/
def compensated (reason : ε → Bool) (undo : EStateM ε σ PUnit) (body : EStateM ε σ α) :
    EStateM ε σ α := fun state =>
  match body state with
  | .ok value next => .ok value next
  | .error why next =>
    bif reason why then (undo >>= fun _ => throw why) next else .error why next

/-- Run a body for each item of a list in order, stopping where it halts. -/
def forEach (body : α → EStateM ε σ PUnit) : List α → EStateM ε σ PUnit
  | [] => pure PUnit.unit
  | item :: rest => do
    body item
    forEach body rest

theorem forEach_singleton (body : α → EStateM ε σ PUnit) (item : α) :
    forEach body [item] = body item :=
  bind_pure_unit

theorem forEach_append (body : α → EStateM ε σ PUnit) (first second : List α) :
    forEach body (first ++ second) = forEach body first >>= fun _ => forEach body second := by
  induction first with
  | nil => exact (pure_bind PUnit.unit fun _ => forEach body second).symm
  | cons item rest ih =>
      have here : forEach body (item :: rest ++ second) =
          body item >>= fun _ => forEach body (rest ++ second) := rfl
      rw [here, ih, ← bind_assoc]
      rfl

instance decidableEqExcept [DecidableEq ε] [DecidableEq α] : DecidableEq (Except ε α)
  | .ok left, .ok right => decidable_of_iff (left = right) (by simp)
  | .error left, .error right => decidable_of_iff (left = right) (by simp)
  | .ok _, .error _ | .error _, .ok _ => isFalse (by simp)

section Outcome

/-- Whether a result halted for a reason in a state that passes a test. -/
def haltsWith [DecidableEq ε] (result : EStateM.Result ε σ α) (reason : ε) (test : σ → Bool) :
    Bool :=
  match result with
  | .ok _ _ => false
  | .error other state => decide (other = reason) && test state

theorem exists_of_haltsWith [DecidableEq ε] {result : EStateM.Result ε σ α} {reason : ε}
    {test : σ → Bool} (halts : haltsWith result reason test = true) :
    ∃ state, result = .error reason state ∧ test state = true := by
  cases result with
  | ok _ _ => cases halts
  | error other state =>
      obtain ⟨same, passes⟩ := Bool.and_eq_true_iff.mp halts
      cases of_decide_eq_true same
      exact ⟨state, rfl, passes⟩

/-- The value and the state of a result that returned. -/
def returned : EStateM.Result ε σ α → Option (α × σ)
  | .ok value state => some (value, state)
  | .error _ _ => none

theorem mem_returned {result : EStateM.Result ε σ α} {pair : α × σ} :
    pair ∈ returned result ↔ result = .ok pair.1 pair.2 := by
  cases result with
  | ok value state =>
      constructor
      · intro same
        cases same
        rfl
      · intro same
        cases same
        rfl
  | error _ _ =>
      constructor <;> intro impossible <;> cases impossible

theorem mem_toOption {result : Except ε α} {value : α} :
    value ∈ result.toOption ↔ result = .ok value := by
  cases result with
  | ok other =>
      constructor
      · intro same
        cases same
        rfl
      · intro same
        cases same
        rfl
  | error _ =>
      constructor <;> intro impossible <;> cases impossible

end Outcome

section Fallible

variable {result : Except ε α} {next : α → Except ε β}

/-- A sequence without state returns exactly when both parts do. -/
theorem except_bind_eq_ok {value : β} :
    (result >>= next) = .ok value ↔ ∃ middle, result = .ok middle ∧ next middle = .ok value := by
  cases result with
  | ok middle =>
      constructor
      · intro returned
        exact ⟨middle, rfl, returned⟩
      · rintro ⟨_, same, returned⟩
        cases same
        exact returned
  | error reason =>
      constructor
      · intro impossible
        cases impossible
      · rintro ⟨_, impossible, _⟩
        cases impossible

/-- A sequence without state halts in its first or in its second part. -/
theorem except_bind_eq_error {reason : ε} :
    (result >>= next) = .error reason ↔
      result = .error reason ∨ ∃ middle, result = .ok middle ∧ next middle = .error reason := by
  cases result with
  | ok middle =>
      constructor
      · intro halted
        exact Or.inr ⟨middle, rfl, halted⟩
      · rintro (impossible | ⟨_, same, halted⟩)
        · cases impossible
        · cases same
          exact halted
  | error why =>
      constructor
      · intro halted
        cases halted
        exact Or.inl rfl
      · rintro (halted | ⟨_, impossible, _⟩)
        · cases halted
          rfl
        · cases impossible

/-- A computation mapped over a list returns what it returns for the items. -/
theorem mem_of_mapM {compute : α → Except ε β} {items : List α} {values : List β}
    (mapped : items.mapM compute = .ok values) {value : β} :
    value ∈ values ↔ ∃ item ∈ items, compute item = .ok value := by
  induction items generalizing values with
  | nil =>
      cases mapped
      simp
  | cons item rest ih =>
      rw [List.mapM_cons] at mapped
      obtain ⟨first, computed, mapped⟩ := except_bind_eq_ok.mp mapped
      obtain ⟨others, mappedRest, finished⟩ := except_bind_eq_ok.mp mapped
      cases finished
      have same : compute item = .ok value ↔ value = first := by
        rw [computed]
        constructor
        · intro equal
          cases equal
          rfl
        · intro equal
          rw [equal]
      simp [ih mappedRest, same]

/-- A computation mapped over a list returns when it returns for every item. -/
theorem exists_mapM_eq_ok_iff {compute : α → Except ε β} {items : List α} :
    (∃ values, items.mapM compute = .ok values) ↔
      ∀ item ∈ items, ∃ value, compute item = .ok value := by
  induction items with
  | nil => simp [pure, Except.pure]
  | cons item rest ih =>
      rw [List.forall_mem_cons, ← ih, List.mapM_cons]
      constructor
      · intro ⟨values, mapped⟩
        obtain ⟨first, computed, mapped⟩ := except_bind_eq_ok.mp mapped
        obtain ⟨others, mappedRest, _⟩ := except_bind_eq_ok.mp mapped
        exact ⟨⟨first, computed⟩, others, mappedRest⟩
      · intro ⟨⟨first, computed⟩, others, mappedRest⟩
        exact ⟨first :: others, except_bind_eq_ok.mpr
          ⟨first, computed, except_bind_eq_ok.mpr ⟨others, mappedRest, rfl⟩⟩⟩

/-- A computation mapped over a list halts where it halts first. -/
theorem mapM_eq_error_iff {compute : α → Except ε β} {items : List α} {reason : ε} :
    items.mapM compute = .error reason ↔
      ∃ before item behind, items = before ++ item :: behind ∧
        (∀ earlier ∈ before, ∃ value, compute earlier = .ok value) ∧
          compute item = .error reason := by
  induction items with
  | nil =>
      constructor
      · intro impossible
        cases impossible
      · intro ⟨before, item, behind, split, _⟩
        cases before <;> cases split
  | cons first rest ih =>
      rw [List.mapM_cons, except_bind_eq_error]
      constructor
      · rintro (halted | ⟨value, computed, halted⟩)
        · exact ⟨[], first, rest, rfl, fun _ impossible => (by cases impossible), halted⟩
        · rcases except_bind_eq_error.mp halted with later | ⟨_, _, impossible⟩
          · obtain ⟨before, item, behind, rfl, earlier, here⟩ := ih.mp later
            exact ⟨first :: before, item, behind, rfl,
              List.forall_mem_cons.mpr ⟨⟨value, computed⟩, earlier⟩, here⟩
          · cases impossible
      · intro ⟨before, item, behind, split, earlier, here⟩
        cases before with
        | nil =>
            cases split
            exact .inl here
        | cons other before =>
            cases split
            obtain ⟨⟨value, computed⟩, others⟩ := List.forall_mem_cons.mp earlier
            refine .inr ⟨value, computed, except_bind_eq_error.mpr (.inl ?_)⟩
            exact ih.mpr ⟨before, item, behind, rfl, others, here⟩

/-- Where a computation can be undone, its values give back the items. -/
theorem map_of_mapM {compute : α → Except ε β} {items : List α} {values : List β} {back : β → α}
    (mapped : items.mapM compute = .ok values)
    (undone : ∀ {item value}, compute item = .ok value → back value = item) :
    values.map back = items := by
  induction items generalizing values with
  | nil =>
      cases mapped
      rfl
  | cons item rest ih =>
      rw [List.mapM_cons] at mapped
      obtain ⟨first, computed, mapped⟩ := except_bind_eq_ok.mp mapped
      obtain ⟨others, mappedRest, finished⟩ := except_bind_eq_ok.mp mapped
      cases finished
      rw [List.map_cons, undone computed, ih mappedRest]

/-- A computation does not halt for a reason. -/
def Avoids (reason : ε) (result : Except ε α) : Prop := result ≠ .error reason

theorem avoids_ok (reason : ε) (value : α) : Avoids reason (.ok value : Except ε α) := by
  intro impossible
  cases impossible

theorem avoids_error {reason other : ε} (differs : other ≠ reason) :
    Avoids reason (.error other : Except ε α) := by
  intro same
  cases same
  exact differs rfl

/-- A sequence halts for no reason that both parts avoid. -/
theorem avoids_bind {reason : ε} (first : Avoids reason result)
    (second : ∀ middle, Avoids reason (next middle)) : Avoids reason (result >>= next) := by
  intro halted
  rcases except_bind_eq_error.mp halted with early | ⟨middle, _, late⟩
  · exact first early
  · exact second middle late

theorem avoids_mapM {reason : ε} {compute : α → Except ε β} {items : List α}
    (each : ∀ item, Avoids reason (compute item)) : Avoids reason (items.mapM compute) := by
  induction items with
  | nil => exact avoids_ok reason []
  | cons item rest ih =>
      rw [List.mapM_cons]
      apply avoids_bind (each item)
      intro first
      apply avoids_bind ih
      intro others
      exact avoids_ok reason _

end Fallible

section Sequence

/-- A sequence returns exactly when both parts do. -/
theorem bind_eq_ok {first : EStateM ε σ α} {second : α → EStateM ε σ β} {state next : σ}
    {value : β} :
    (first >>= second) state = .ok value next ↔
      ∃ middle between, first state = .ok middle between ∧
        second middle between = .ok value next := by
  change EStateM.bind first second state = _ ↔ _
  unfold EStateM.bind
  cases first state with
  | ok middle between =>
      constructor
      · intro returned
        exact ⟨middle, between, rfl, returned⟩
      · rintro ⟨_, _, same, returned⟩
        cases same
        exact returned
  | error reason between =>
      constructor
      · intro impossible
        cases impossible
      · rintro ⟨_, _, impossible, _⟩
        cases impossible

/-- A sequence halts in its first part, or in its second part after the first
returned. -/
theorem bind_eq_error {first : EStateM ε σ α} {second : α → EStateM ε σ β} {state next : σ}
    {reason : ε} :
    (first >>= second) state = .error reason next ↔
      first state = .error reason next ∨
        ∃ middle between, first state = .ok middle between ∧
          second middle between = .error reason next := by
  change EStateM.bind first second state = _ ↔ _
  unfold EStateM.bind
  cases first state with
  | ok middle between =>
      constructor
      · intro halted
        exact Or.inr ⟨middle, between, rfl, halted⟩
      · rintro (impossible | ⟨_, _, same, halted⟩)
        · cases impossible
        · cases same
          exact halted
  | error why between =>
      constructor
      · intro halted
        cases halted
        exact Or.inl rfl
      · rintro (halted | ⟨_, _, impossible, _⟩)
        · cases halted
          rfl
        · cases impossible

theorem bind_of_ok {first : EStateM ε σ α} {second : α → EStateM ε σ β} {state between : σ}
    {middle : α} (returned : first state = .ok middle between) :
    (first >>= second) state = second middle between := by
  change EStateM.bind first second state = _
  unfold EStateM.bind
  rw [returned]

theorem bind_of_error {first : EStateM ε σ α} {second : α → EStateM ε σ β} {state between : σ}
    {reason : ε} (halted : first state = .error reason between) :
    (first >>= second) state = .error reason between := by
  change EStateM.bind first second state = _
  unfold EStateM.bind
  rw [halted]

@[simp] theorem pure_apply (value : α) (state : σ) :
    (pure value : EStateM ε σ α) state = .ok value state := rfl

@[simp] theorem throw_apply (reason : ε) (state : σ) :
    (throw reason : EStateM ε σ α) state = .error reason state := rfl

@[simp] theorem attempt_ok (value : α) (state : σ) :
    (attempt (.ok value) : EStateM ε σ α) state = .ok value state := rfl

@[simp] theorem attempt_error (reason : ε) (state : σ) :
    (attempt (.error reason) : EStateM ε σ α) state = .error reason state := rfl

/-- A sequence that reads the state goes on with it. -/
theorem get_bind (next : σ → EStateM ε σ α) (state : σ) :
    ((get : EStateM ε σ σ) >>= next) state = next state state := rfl

/-- A sequence that rewrites the state goes on from the new one. -/
theorem modify_bind (change : σ → σ) (next : PUnit → EStateM ε σ α) (state : σ) :
    ((modify change : EStateM ε σ PUnit) >>= next) state = next ⟨⟩ (change state) := rfl

theorem attempt_eq_ok {result : Except ε α} {state next : σ} {value : α} :
    (attempt result : EStateM ε σ α) state = .ok value next ↔
      result = .ok value ∧ next = state := by
  cases result with
  | ok other =>
      constructor
      · intro same
        cases same
        exact ⟨rfl, rfl⟩
      · rintro ⟨same, rfl⟩
        cases same
        rfl
  | error reason =>
      constructor
      · intro impossible
        cases impossible
      · rintro ⟨impossible, _⟩
        cases impossible

theorem attempt_eq_error {result : Except ε α} {state next : σ} {reason : ε} :
    (attempt result : EStateM ε σ α) state = .error reason next ↔
      result = .error reason ∧ next = state := by
  cases result with
  | ok value =>
      constructor
      · intro impossible
        cases impossible
      · rintro ⟨impossible, _⟩
        cases impossible
  | error other =>
      constructor
      · intro same
        cases same
        exact ⟨rfl, rfl⟩
      · rintro ⟨same, rfl⟩
        cases same
        rfl

/-- A focused procedure returns exactly when it does on the component. -/
theorem focus_eq_ok {get : σ → τ} {set : τ → σ → σ} {body : EStateM ε τ α} {before after : σ}
    {value : α} :
    focus get set body before = .ok value after ↔
      ∃ part, body (get before) = .ok value part ∧ after = set part before := by
  unfold focus
  cases body (get before) with
  | ok other part =>
      constructor
      · intro returned
        cases returned
        exact ⟨part, rfl, rfl⟩
      · rintro ⟨_, same, rfl⟩
        cases same
        rfl
  | error reason part =>
      constructor
      · intro impossible
        cases impossible
      · rintro ⟨_, impossible, _⟩
        cases impossible

theorem focus_eq_error {get : σ → τ} {set : τ → σ → σ} {body : EStateM ε τ α}
    {before after : σ} {reason : ε} :
    focus get set body before = .error reason after ↔
      ∃ part, body (get before) = .error reason part ∧ after = set part before := by
  unfold focus
  cases body (get before) with
  | ok value part =>
      constructor
      · intro impossible
        cases impossible
      · rintro ⟨_, impossible, _⟩
        cases impossible
  | error why part =>
      constructor
      · intro halted
        cases halted
        exact ⟨part, rfl, rfl⟩
      · rintro ⟨_, same, rfl⟩
        cases same
        rfl

theorem forEach_cons_of_ok {body : α → EStateM ε σ PUnit} {item : α} {rest : List α}
    {state between : σ} (returned : body item state = .ok ⟨⟩ between) :
    forEach body (item :: rest) state = forEach body rest between := bind_of_ok returned

theorem forEach_append_of_ok {body : α → EStateM ε σ PUnit} {first second : List α}
    {state between : σ} (returned : forEach body first state = .ok ⟨⟩ between) :
    forEach body (first ++ second) state = forEach body second between := by
  rw [forEach_append]
  exact bind_of_ok returned

/-- What returns for all items has returned for the first of them. -/
theorem forEach_of_isPrefix {body : α → EStateM ε σ PUnit} {first items : List α}
    {state after : σ} (isPrefix : first <+: items)
    (ran : forEach body items state = .ok ⟨⟩ after) :
    ∃ between, forEach body first state = .ok ⟨⟩ between := by
  obtain ⟨others, rfl⟩ := isPrefix
  rw [forEach_append] at ran
  obtain ⟨_, between, here, _⟩ := bind_eq_ok.mp ran
  exact ⟨between, here⟩

/-- A focused procedure leaves what the procedure leaves of the component. -/
theorem final_focus {get : σ → τ} {set : τ → σ → σ} (body : EStateM ε τ α) (state : σ) :
    final (focus get set body state) = set (final (body (get state))) state := by
  unfold focus
  cases body (get state) <;> rfl

/-- What halts at the end leaves what comes before it. -/
theorem final_bind_throw (first : EStateM ε σ α) (reason : ε) (state : σ) :
    final ((first >>= fun _ => (throw reason : EStateM ε σ β)) state) = final (first state) := by
  cases ran : first state with
  | ok value next =>
      rw [bind_of_ok ran]
      rfl
  | error other next =>
      rw [bind_of_error ran]
      rfl

end Sequence

section Frame

/-- A procedure keeps an observation of the state when it is the same before and
after, however the procedure ends. -/
def Keeps (observe : σ → τ) (body : EStateM ε σ α) : Prop :=
  ∀ state, observe (final (body state)) = observe state

variable {observe : σ → τ}

theorem Keeps.of_ok {body : EStateM ε σ α} (keeps : Keeps observe body) {state next : σ}
    {value : α} (returned : body state = .ok value next) : observe next = observe state := by
  have same := keeps state
  rwa [returned] at same

theorem Keeps.of_error {body : EStateM ε σ α} (keeps : Keeps observe body) {state next : σ}
    {reason : ε} (halted : body state = .error reason next) : observe next = observe state := by
  have same := keeps state
  rwa [halted] at same

theorem keeps_pure (value : α) : Keeps observe (pure value : EStateM ε σ α) := fun _ => rfl

theorem keeps_attempt (result : Except ε α) :
    Keeps observe (attempt result : EStateM ε σ α) := by
  intro state
  cases result <;> rfl

theorem keeps_get : Keeps observe (get : EStateM ε σ σ) := fun _ => rfl

theorem keeps_bind {first : EStateM ε σ α} {second : α → EStateM ε σ β}
    (left : Keeps observe first) (right : ∀ value, Keeps observe (second value)) :
    Keeps observe (first >>= second) := by
  intro state
  cases ran : first state with
  | ok middle between =>
      rw [bind_of_ok ran, right middle between]
      exact left.of_ok ran
  | error reason between =>
      rw [bind_of_error ran]
      exact left.of_error ran

end Frame

section Compensation

variable {reason : ε → Bool} {undo : EStateM ε σ PUnit} {body : EStateM ε σ α}

theorem compensated_eq_ok {state next : σ} {value : α} :
    compensated reason undo body state = .ok value next ↔ body state = .ok value next := by
  unfold compensated
  cases body state with
  | ok other between => rfl
  | error why between =>
      constructor
      · intro impossible
        cases caught : reason why <;> simp only [caught, cond_false, cond_true] at impossible
        · cases impossible
        · obtain ⟨_, _, _, thrown⟩ := bind_eq_ok.mp impossible
          cases thrown
      · intro impossible
        cases impossible

/-- A compensated body halts for an uncaught reason at once, and for any other
reason only through its compensation. -/
theorem compensated_eq_error {state next : σ} {why : ε}
    (halted : compensated reason undo body state = .error why next) :
    ∃ cause between, body state = .error cause between ∧
      ((reason cause = false ∧ why = cause ∧ next = between) ∨
        (reason cause = true ∧ (undo between = .error why next ∨
          ∃ done, undo between = .ok done next ∧ why = cause))) := by
  unfold compensated at halted
  cases ran : body state with
  | ok other between =>
      rw [ran] at halted
      cases halted
  | error cause between =>
      rw [ran] at halted
      refine ⟨cause, between, rfl, ?_⟩
      cases caught : reason cause <;> simp only [caught, cond_false, cond_true] at halted
      · cases halted
        exact Or.inl ⟨rfl, rfl, rfl⟩
      · right
        rcases bind_eq_error.mp halted with early | ⟨done, _, returned, thrown⟩
        · exact ⟨rfl, Or.inl early⟩
        · cases thrown
          exact ⟨rfl, Or.inr ⟨done, returned, rfl⟩⟩

/-- A body that halts for an uncaught reason is not compensated. -/
theorem compensated_of_uncaught {state next : σ} {why : ε}
    (halted : body state = .error why next) (uncaught : reason why = false) :
    compensated reason undo body state = .error why next := by
  unfold compensated
  rw [halted]
  simp only [uncaught, cond_false]

/-- A body that halts for a caught reason ends where its compensation ends. -/
theorem compensated_of_caught {state between next : σ} {why : ε} {done : PUnit}
    (halted : body state = .error why between) (caught : reason why = true)
    (undone : undo between = .ok done next) :
    compensated reason undo body state = .error why next := by
  unfold compensated
  rw [halted]
  simp only [caught, cond_true]
  exact bind_of_ok undone

end Compensation

section Run

variable {State Op : Type u}

/-- One step of a system under some operation that its guard admits. -/
def Guarded (step : State → Op → State → Prop) (guard : State → Op → Prop)
    (before after : State) : Prop :=
  ∃ op, guard before op ∧ step before op after

/-- What every admitted step preserves holds at the end of every run of admitted
steps. -/
theorem invariant_of_run {step : State → Op → State → Prop} {guard : State → Op → Prop}
    (invariant : State → Prop)
    (preserved : ∀ before op after, invariant before → guard before op →
      step before op after → invariant after)
    {first last : State} (start : invariant first)
    (run : Relation.ReflTransGen (Guarded step guard) first last) : invariant last := by
  induction run with
  | refl => exact start
  | tail _ stepped ih =>
      obtain ⟨op, admitted, next⟩ := stepped
      exact preserved _ op _ ih admitted next

end Run

end Procedure
