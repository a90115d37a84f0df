import Mathlib.Data.List.Basic

/-! # Cells of a heap

A heap is a list of cells. A cell is referred to by its position, and a new cell is put at the
end, so that addresses stay what they are. What an operation leaves alone is told by the addresses
it may touch. Where each cell points up to one other at most, the way up from a cell is told by
the number of its steps.
-/

namespace Heap

abbrev Ref := Nat

variable {β : Type*} {store next last : List β} {touched others : List Ref}

/-- No cell changed but those at some addresses; cells may have been added. -/
structure Frame (touched : List Ref) (store next : List β) : Prop where
  grows : store.length ≤ next.length
  kept : ∀ address < store.length, address ∉ touched → next[address]? = store[address]?

theorem lt_length_of_read {address : Ref} {cell : β} (read : store[address]? = some cell) :
    address < store.length := (List.getElem?_eq_some_iff.mp read).1

namespace Frame

theorem refl (touched : List Ref) (store : List β) : Frame touched store store :=
  ⟨Nat.le_refl _, fun _ _ _ => rfl⟩

theorem mono (frame : Frame touched store next)
    (within : ∀ address ∈ touched, address < store.length → address ∈ others) :
    Frame others store next :=
  ⟨frame.grows, fun address present apart =>
    frame.kept address present fun member => apart (within address member present)⟩

theorem trans (first : Frame touched store next) (second : Frame others next last)
    (within : ∀ address ∈ others, address < store.length → address ∈ touched) :
    Frame touched store last := by
  refine ⟨Nat.le_trans first.grows second.grows, fun address present apart => ?_⟩
  have still := second.kept address (Nat.lt_of_lt_of_le present first.grows) fun member =>
    apart (within address member present)
  exact still.trans (first.kept address present apart)

/-- A new cell is put behind the others. -/
theorem append (store cells : List β) : Frame [] store (store ++ cells) := by
  refine ⟨?_, fun address present _ => List.getElem?_append_left present⟩
  rw [List.length_append]
  exact Nat.le_add_right _ _

theorem modify (address : Ref) (change : β → β) (store : List β) :
    Frame [address] store (store.modify address change) := by
  refine ⟨Nat.le_of_eq (List.length_modify ..).symm, fun other _ apart => ?_⟩
  rw [List.getElem?_modify_ne _ _ fun same => apart (List.mem_singleton.mpr same.symm)]

theorem read (frame : Frame touched store next) {address : Ref} {cell : β}
    (present : store[address]? = some cell) (apart : address ∉ touched) :
    next[address]? = some cell :=
  (frame.kept address (lt_length_of_read present) apart).trans present

end Frame

/-- A cell that a change leaves as it is can as well be left alone. -/
theorem modify_of_fixed {address : Ref} {cell : β} {change : β → β}
    (read : store[address]? = some cell) (fixed : change cell = cell) :
    store.modify address change = store := by
  refine List.ext_getElem? fun other => ?_
  by_cases same : address = other
  · rw [← same, List.getElem?_modify_eq, read, Option.map_eq_map, Option.map_some, fixed]
  · rw [List.getElem?_modify_ne _ _ same]

theorem modify_length (store : List β) (cell : β) (change : β → β) :
    (store ++ [cell]).modify store.length change = store ++ [change cell] := by
  induction store with
  | nil => rfl
  | cons first rest ih => exact congrArg (first :: ·) ih

section Way

variable {α : Type*} (up : α → Option α)

/-- Where a number of steps up lead. -/
def climb : Nat → α → Option α
  | 0, start => some start
  | steps + 1, start => (up start).bind (climb steps)

theorem climb_add (first second : Nat) (start : α) :
    climb up (first + second) start = (climb up first start).bind (climb up second) := by
  induction first generalizing start with
  | zero => rw [Nat.zero_add, climb, Option.bind_some]
  | succ steps ih =>
      rw [Nat.succ_add, climb, climb]
      cases up start with
      | none => rfl
      | some above => exact ih above

variable {up}

/-- The way up to the top has one length. -/
theorem climb_unique {start top other : α} {first second : Nat} (leads : climb up first start = some top)
    (ends : up top = none) (leadsOther : climb up second start = some other)
    (endsOther : up other = none) : first = second ∧ top = other := by
  induction first generalizing start second with
  | zero =>
      cases leads
      cases second with
      | zero =>
          cases leadsOther
          exact ⟨rfl, rfl⟩
      | succ steps =>
          rw [climb, ends] at leadsOther
          cases leadsOther
  | succ steps ih =>
      cases above : up start with
      | none =>
          rw [climb, above] at leads
          cases leads
      | some parent =>
          rw [climb, above, Option.bind_some] at leads
          cases second with
          | zero =>
              cases leadsOther
              rw [endsOther] at above
              cases above
          | succ more =>
              rw [climb, above, Option.bind_some] at leadsOther
              obtain ⟨length, sameTop⟩ := ih leads leadsOther
              exact ⟨congrArg Nat.succ length, sameTop⟩

end Way

end Heap
