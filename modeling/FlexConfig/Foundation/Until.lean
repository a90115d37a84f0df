import Mathlib.Data.List.Basic

/-! # Shown until one is refused

A visitor is shown the items of a list in turn, with a state of its own, and accepts or refuses
each. A loop that ends at the first item that is refused shows the items up to that one.
-/

namespace Until

variable {α σ : Type*} {visit : σ → α → Bool × σ}

/-- The items that are shown: those up to the first that is refused. -/
def shown (visit : σ → α → Bool × σ) : σ → List α → List α
  | _, [] => []
  | state, item :: rest =>
    match visit state item with
    | (true, next) => item :: shown visit next rest
    | (false, _) => [item]

/-- The first item that is refused, and the items behind it. -/
def refused (visit : σ → α → Bool × σ) : σ → List α → Option (α × List α)
  | _, [] => none
  | state, item :: rest =>
    match visit state item with
    | (true, next) => refused visit next rest
    | (false, _) => some (item, rest)

/-- The state after all items were shown. -/
def after (visit : σ → α → Bool × σ) (state : σ) (items : List α) : σ :=
  items.foldl (fun state item => (visit state item).2) state

section Cons

variable {state next : σ} {item : α} {rest : List α}

theorem shown_cons_of_accepted (accepts : visit state item = (true, next)) :
    shown visit state (item :: rest) = item :: shown visit next rest := by
  rw [shown, accepts]

theorem shown_cons_of_refused (refuses : visit state item = (false, next)) :
    shown visit state (item :: rest) = [item] := by
  rw [shown, refuses]

theorem refused_cons_of_accepted (accepts : visit state item = (true, next)) :
    refused visit state (item :: rest) = refused visit next rest := by
  rw [refused, accepts]

theorem refused_cons_of_refused (refuses : visit state item = (false, next)) :
    refused visit state (item :: rest) = some (item, rest) := by
  rw [refused, refuses]

theorem after_cons_of_accepted (accepts : visit state item = (true, next)) :
    after visit state (item :: rest) = after visit next rest := by
  rw [after, List.foldl_cons, accepts]
  rfl

end Cons

variable {state : σ} {first second : List α}

theorem after_append : after visit state (first ++ second) =
    after visit (after visit state first) second := List.foldl_append

theorem shown_append_of_accepted (accepts : refused visit state first = none) :
    shown visit state (first ++ second) = first ++ shown visit (after visit state first) second := by
  induction first generalizing state with
  | nil => rfl
  | cons item rest ih =>
      rcases visited : visit state item with ⟨answer, next⟩
      cases answer with
      | false =>
          rw [refused_cons_of_refused visited] at accepts
          cases accepts
      | true =>
          rw [refused_cons_of_accepted visited] at accepts
          rw [List.cons_append, shown_cons_of_accepted visited, ih accepts,
            after_cons_of_accepted visited, List.cons_append]

theorem shown_append_of_refused {pair : α × List α} (refuses : refused visit state first = some pair) :
    shown visit state (first ++ second) = shown visit state first := by
  induction first generalizing state with
  | nil => cases refuses
  | cons item rest ih =>
      rcases visited : visit state item with ⟨answer, next⟩
      rw [List.cons_append]
      cases answer with
      | false => rw [shown_cons_of_refused visited, shown_cons_of_refused visited]
      | true =>
          rw [refused_cons_of_accepted visited] at refuses
          rw [shown_cons_of_accepted visited, shown_cons_of_accepted visited, ih refuses]

theorem refused_append_of_accepted (accepts : refused visit state first = none) :
    refused visit state (first ++ second) = refused visit (after visit state first) second := by
  induction first generalizing state with
  | nil => rfl
  | cons item rest ih =>
      rcases visited : visit state item with ⟨answer, next⟩
      cases answer with
      | false =>
          rw [refused_cons_of_refused visited] at accepts
          cases accepts
      | true =>
          rw [refused_cons_of_accepted visited] at accepts
          rw [List.cons_append, refused_cons_of_accepted visited, ih accepts,
            after_cons_of_accepted visited]

theorem refused_append_of_refused {item : α} {behind : List α}
    (refuses : refused visit state first = some (item, behind)) :
    refused visit state (first ++ second) = some (item, behind ++ second) := by
  induction first generalizing state with
  | nil => cases refuses
  | cons other rest ih =>
      rcases visited : visit state other with ⟨answer, next⟩
      rw [List.cons_append]
      cases answer with
      | false =>
          rw [refused_cons_of_refused visited] at refuses ⊢
          cases refuses
          rfl
      | true =>
          rw [refused_cons_of_accepted visited] at refuses ⊢
          exact ih refuses

theorem refused_append_eq_none_iff : refused visit state (first ++ second) = none ↔
    refused visit state first = none ∧ refused visit (after visit state first) second = none := by
  cases refuses : refused visit state first with
  | none =>
      rw [refused_append_of_accepted refuses]
      exact (and_iff_right rfl).symm
  | some pair =>
      rw [refused_append_of_refused refuses]
      exact iff_of_false (Option.some_ne_none _) fun both => nomatch both.1

/-- What is refused is one of the items, and so is what is behind it. -/
theorem mem_of_refused {item : α} {behind : List α}
    (refuses : refused visit state first = some (item, behind)) : (item :: behind) <:+ first := by
  induction first generalizing state with
  | nil => cases refuses
  | cons other rest ih =>
      rcases visited : visit state other with ⟨answer, next⟩
      cases answer with
      | false =>
          rw [refused_cons_of_refused visited] at refuses
          cases refuses
          exact List.suffix_refl _
      | true =>
          rw [refused_cons_of_accepted visited] at refuses
          exact (ih refuses).trans (List.suffix_cons other rest)

/-- The items that are shown come first. -/
theorem shown_prefix : shown visit state first <+: first := by
  induction first generalizing state with
  | nil => exact List.prefix_refl []
  | cons item rest ih =>
      rcases visited : visit state item with ⟨answer, next⟩
      cases answer with
      | false =>
          rw [shown_cons_of_refused visited]
          exact ⟨rest, rfl⟩
      | true =>
          rw [shown_cons_of_accepted visited]
          exact List.cons_prefix_cons.mpr ⟨rfl, ih⟩

end Until
