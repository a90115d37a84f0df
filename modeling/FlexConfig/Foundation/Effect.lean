import FlexConfig.Foundation.Procedure

/-! # Procedures whose answer is known beforehand

A procedure that returns one value from every state is described by its effect alone: the
state it returns in, or the reason it halts for. What it had written before it halted is
not part of the effect; that a property of the state is not lost on the way, however the
procedure ends, is a rule of its own (`Preserves`).
-/

namespace Procedure

universe u

variable {ε σ τ α β : Type u}

/-- A run returns a value in the state an outcome tells, or halts for its reason. -/
def Ends (result : EStateM.Result ε σ α) (value : α) : Except ε σ → Prop
  | .ok state => result = .ok value state
  | .error reason => ∃ state, result = .error reason state

/-- A procedure returns a value wherever it has its effect, and halts where that does. -/
def Performs (body : EStateM ε σ α) (value : α) (effect : σ → Except ε σ) : Prop :=
  ∀ state, Ends (body state) value (effect state)

section Rules

variable {body : EStateM ε σ α} {value : α} {effect : σ → Except ε σ}

theorem Performs.eq_ok_iff (performs : Performs body value effect) {state next : σ} :
    body state = .ok value next ↔ effect state = .ok next := by
  have ends := performs state
  cases leaves : effect state with
  | ok other =>
      rw [leaves] at ends
      rw [show body state = .ok value other from ends]
      simp
  | error reason =>
      rw [leaves] at ends
      obtain ⟨last, halts⟩ := ends
      rw [halts]
      simp

theorem Performs.congr {other : σ → Except ε σ} (performs : Performs body value effect)
    (same : ∀ state, other state = effect state) : Performs body value other := fun state =>
  same state ▸ performs state

theorem performs_pure (value : α) : Performs (pure value : EStateM ε σ α) value .ok := fun _ => rfl

theorem Performs.bind {second : α → EStateM ε σ β} {last : β} {next : σ → Except ε σ}
    (performs : Performs body value effect) (performsNext : Performs (second value) last next) :
    Performs (body >>= second) last fun state => effect state >>= next := by
  intro state
  have ends := performs state
  change Ends ((body >>= second) state) last (effect state >>= next)
  cases leaves : effect state with
  | ok between =>
      rw [leaves] at ends
      rw [bind_of_ok ends]
      exact performsNext between
  | error reason =>
      rw [leaves] at ends
      obtain ⟨between, halts⟩ := ends
      exact ⟨between, bind_of_error halts⟩

theorem attempt_ok_bind (value : α) (next : α → EStateM ε σ β) :
    attempt (.ok value) >>= next = next value := rfl

theorem performs_focus {get : τ → σ} {set : σ → τ → τ} (performs : Performs body value effect) :
    Performs (focus get set body) value fun state =>
      (effect (get state)).map fun part => set part state := by
  intro state
  have ends := performs (get state)
  change Ends (focus get set body state) value
    ((effect (get state)).map fun part => set part state)
  cases leaves : effect (get state) with
  | ok part =>
      rw [leaves] at ends
      exact focus_eq_ok.mpr ⟨part, ends, rfl⟩
  | error reason =>
      rw [leaves] at ends
      obtain ⟨part, halts⟩ := ends
      exact ⟨set part state, focus_eq_error.mpr ⟨part, halts, rfl⟩⟩

end Rules

section Preserve

variable {property : σ → Prop}

/-- A property of the state that holds before a procedure holds after it, however it ends. -/
def Preserves (property : σ → Prop) (body : EStateM ε σ α) : Prop :=
  ∀ state, property state → property (final (body state))

theorem preserves_pure (value : α) : Preserves property (pure value : EStateM ε σ α) :=
  fun _ holds => holds

theorem preserves_throw (reason : ε) : Preserves property (throw reason : EStateM ε σ α) :=
  fun _ holds => holds

theorem preserves_attempt (result : Except ε α) :
    Preserves property (attempt result : EStateM ε σ α) := by
  intro state holds
  cases result <;> exact holds

theorem preserves_modify {change : σ → σ} (keeps : ∀ state, property state → property (change state)) :
    Preserves property (modify change : EStateM ε σ PUnit) := fun state holds => keeps state holds

theorem Preserves.bind {first : EStateM ε σ α} {second : α → EStateM ε σ β}
    (preserves : Preserves property first) (next : ∀ value, Preserves property (second value)) :
    Preserves property (first >>= second) := by
  intro state holds
  have between := preserves state holds
  cases ran : first state with
  | ok value last =>
      rw [ran] at between
      rw [bind_of_ok ran]
      exact next value last between
  | error reason last =>
      rw [ran] at between
      rw [bind_of_error ran]
      exact between

theorem preserves_forEach {body : α → EStateM ε σ PUnit} {items : List α}
    (each : ∀ item, Preserves property (body item)) : Preserves property (forEach body items) := by
  induction items with
  | nil => exact preserves_pure _
  | cons item rest ih => exact (each item).bind fun _ => ih

theorem preserves_focus {part : τ → Prop} {get : σ → τ} {set : τ → σ → σ} {body : EStateM ε τ α}
    (preserves : Preserves part body) (reads : ∀ state, property state → part (get state))
    (writes : ∀ inner state, part inner → property state → property (set inner state)) :
    Preserves property (focus get set body) := by
  intro state holds
  rw [final_focus]
  exact writes _ _ (preserves _ (reads state holds)) holds

end Preserve

end Procedure
