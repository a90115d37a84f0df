import Mathlib.Data.Finset.Filter
import Mathlib.Data.Finset.Insert

/-! # Stores of items and the changes posted to them

A store holds items, each a value under a key; a key can have several values. A
party that cannot read the store keeps it up to date by posting changes: it adds a
value, replaces all values of a key by one, removes a value, or clears a key.

A list of changes is understood through what each of them inserts and what it
erases. Where no change erases what another one inserts, the order of the list does
not matter (`ItemStore.mem_applyAll_of_settled`). What is left of changes and of those
that take them back is read off what each of them inserts and erases
(`ItemStore.mem_applyAll_takenBack`).
-/

namespace ItemStore

variable {κ ν : Type*} [DecidableEq κ] [DecidableEq ν]

/-- The items a store holds. -/
abbrev Store (κ ν : Type*) := Finset (κ × ν)

inductive Change (κ ν : Type*) where
  | add (key : κ) (value : ν)
  | replace (key : κ) (value : ν)
  | remove (key : κ) (value : ν)
  | clear (key : κ)
  deriving DecidableEq

namespace Change

/-- What a change makes of a store. -/
def apply : Change κ ν → Store κ ν → Store κ ν
  | .add key value, store => insert (key, value) store
  | .replace key value, store => insert (key, value) (store.filter fun item => item.1 ≠ key)
  | .remove key value, store => store.filter fun item => item ≠ (key, value)
  | .clear key, store => store.filter fun item => item.1 ≠ key

/-- The change puts an item into the store. -/
def Inserts : Change κ ν → κ × ν → Prop
  | .add key value, item => item = (key, value)
  | .replace key value, item => item = (key, value)
  | .remove _ _, _ => False
  | .clear _, _ => False

/-- The change takes an item out of the store. -/
def Erases : Change κ ν → κ × ν → Prop
  | .add _ _, _ => False
  | .replace key value, item => item.1 = key ∧ item.2 ≠ value
  | .remove key value, item => item = (key, value)
  | .clear key, item => item.1 = key

instance (change : Change κ ν) (item : κ × ν) : Decidable (change.Inserts item) := by
  cases change <;> unfold Inserts <;> infer_instance

instance (change : Change κ ν) (item : κ × ν) : Decidable (change.Erases item) := by
  cases change <;> unfold Erases <;> infer_instance

theorem mem_apply {change : Change κ ν} {store : Store κ ν} {item : κ × ν} :
    item ∈ change.apply store ↔ change.Inserts item ∨ (item ∈ store ∧ ¬ change.Erases item) := by
  obtain ⟨itemKey, itemValue⟩ := item
  cases change with
  | add key value => simp [apply, Inserts, Erases]
  | replace key value =>
      have spelled : (itemKey, itemValue) ∈ (Change.replace key value).apply store ↔
          (itemKey, itemValue) = (key, value) ∨ ((itemKey, itemValue) ∈ store ∧ itemKey ≠ key) := by
        simp [apply]
      rw [spelled]
      by_cases same : (itemKey, itemValue) = (key, value)
      · simp [same, Inserts]
      · have apart : itemKey = key → itemValue ≠ value := fun sameKey sameValue =>
          same (by rw [sameKey, sameValue])
        by_cases sameKey : itemKey = key
        · simp [Inserts, Erases, sameKey, apart sameKey]
        · simp [Inserts, Erases, sameKey]
  | remove key value => simp [apply, Inserts, Erases]
  | clear key => simp [apply, Inserts, Erases]

end Change

/-- What a list of changes makes of a store, one after the other. -/
def applyAll (changes : List (Change κ ν)) (store : Store κ ν) : Store κ ν :=
  changes.foldl (fun store change => change.apply store) store

@[simp] theorem applyAll_nil (store : Store κ ν) : applyAll [] store = store := rfl

@[simp] theorem applyAll_cons (change : Change κ ν) (rest : List (Change κ ν))
    (store : Store κ ν) : applyAll (change :: rest) store = applyAll rest (change.apply store) :=
  rfl

theorem applyAll_append (first second : List (Change κ ν)) (store : Store κ ν) :
    applyAll (first ++ second) store = applyAll second (applyAll first store) :=
  List.foldl_append

section Settled

/-- No change erases what another one inserts. -/
def Settled (changes : List (Change κ ν)) : Prop :=
  ∀ change ∈ changes, ∀ other ∈ changes, ∀ item, change.Inserts item → ¬ other.Erases item

/-- An item survives changes that do not erase it. -/
theorem mem_applyAll_of_mem {changes : List (Change κ ν)} {store : Store κ ν} {item : κ × ν}
    (member : item ∈ store) (spared : ∀ change ∈ changes, ¬ change.Erases item) :
    item ∈ applyAll changes store := by
  induction changes generalizing store with
  | nil => exact member
  | cons change rest ih =>
      have survives : item ∈ change.apply store :=
        Change.mem_apply.mpr (Or.inr ⟨member, spared change List.mem_cons_self⟩)
      exact ih survives fun other later => spared other (List.mem_cons_of_mem _ later)

/-- An item in the store at the end was inserted, or was there and has not been erased. -/
theorem inserted_or_kept {changes : List (Change κ ν)} {store : Store κ ν} {item : κ × ν}
    (member : item ∈ applyAll changes store) :
    (∃ change ∈ changes, change.Inserts item) ∨
      (item ∈ store ∧ ∀ change ∈ changes, ¬ change.Erases item) := by
  induction changes generalizing store with
  | nil => exact Or.inr ⟨member, fun _ impossible => absurd impossible List.not_mem_nil⟩
  | cons change rest ih =>
      rcases ih member with ⟨other, later, inserts⟩ | ⟨between, spared⟩
      · exact Or.inl ⟨other, List.mem_cons_of_mem _ later, inserts⟩
      · rcases Change.mem_apply.mp between with inserts | ⟨before, survives⟩
        · exact Or.inl ⟨change, List.mem_cons_self, inserts⟩
        · exact Or.inr ⟨before, List.forall_mem_cons.mpr ⟨survives, spared⟩⟩

/-- An inserted item stays where no change erases it. -/
theorem mem_applyAll_of_inserts {changes : List (Change κ ν)} {store : Store κ ν} {item : κ × ν}
    (inserted : ∃ change ∈ changes, change.Inserts item)
    (spared : ∀ change ∈ changes, ¬ change.Erases item) : item ∈ applyAll changes store := by
  obtain ⟨change, member, inserts⟩ := inserted
  obtain ⟨earlier, later, rfl⟩ := List.append_of_mem member
  rw [applyAll_append, applyAll_cons]
  apply mem_applyAll_of_mem
  · exact Change.mem_apply.mpr (Or.inl inserts)
  · intro other after
    exact spared other (List.mem_append_right _ (List.mem_cons_of_mem _ after))

/-- What settled changes make of a store does not depend on their order. -/
theorem mem_applyAll_of_settled {changes : List (Change κ ν)} (settled : Settled changes)
    {store : Store κ ν} {item : κ × ν} :
    item ∈ applyAll changes store ↔
      (∃ change ∈ changes, change.Inserts item) ∨
        (item ∈ store ∧ ∀ change ∈ changes, ¬ change.Erases item) := by
  constructor
  · exact inserted_or_kept
  · intro reason
    rcases reason with inserted | ⟨member, spared⟩
    · obtain ⟨change, present, inserts⟩ := id inserted
      exact mem_applyAll_of_inserts inserted fun other later =>
        settled change present other later item inserts
    · exact mem_applyAll_of_mem member spared

end Settled

section Pure

/-- The changes put nothing in. -/
def OnlyErase (changes : List (Change κ ν)) : Prop :=
  ∀ change ∈ changes, ∀ item, ¬ change.Inserts item

/-- The changes take nothing out. -/
def OnlyInsert (changes : List (Change κ ν)) : Prop :=
  ∀ change ∈ changes, ∀ item, ¬ change.Erases item

variable {changes : List (Change κ ν)} {store : Store κ ν} {item : κ × ν}

omit [DecidableEq κ] [DecidableEq ν] in
theorem OnlyErase.settled (erase : OnlyErase changes) : Settled changes :=
  fun change member _ _ item inserts => absurd inserts (erase change member item)

omit [DecidableEq κ] [DecidableEq ν] in
theorem OnlyInsert.settled (insert : OnlyInsert changes) : Settled changes :=
  fun _ _ other member item _ => insert other member item

theorem OnlyErase.mem_applyAll_iff (erase : OnlyErase changes) :
    item ∈ applyAll changes store ↔ item ∈ store ∧ ∀ change ∈ changes, ¬ change.Erases item := by
  rw [mem_applyAll_of_settled erase.settled]
  exact or_iff_right fun ⟨change, member, inserts⟩ => erase change member item inserts

theorem OnlyInsert.mem_applyAll_iff (insert : OnlyInsert changes) :
    item ∈ applyAll changes store ↔ (∃ change ∈ changes, change.Inserts item) ∨ item ∈ store := by
  rw [mem_applyAll_of_settled insert.settled]
  exact or_congr_right (and_iff_left fun change member => insert change member item)

/-- Changes that take items out are followed by settled ones, and then by those that take the one
and the other back: first what was put in is taken out, then what was taken out is put in. -/
theorem mem_applyAll_takenBack {deletions updates revocations restorations : List (Change κ ν)}
    (deletes : OnlyErase deletions) (updated : Settled updates) (revokes : OnlyErase revocations)
    (restores : OnlyInsert restorations) :
    item ∈ applyAll (deletions ++ updates ++ (revocations ++ restorations)) store ↔
      (∃ change ∈ restorations, change.Inserts item) ∨
        ((∃ change ∈ updates, change.Inserts item) ∨
          (item ∈ store ∧ ∀ change ∈ deletions, ¬ change.Erases item) ∧
            ∀ change ∈ updates, ¬ change.Erases item) ∧
          ∀ change ∈ revocations, ¬ change.Erases item := by
  rw [applyAll_append, applyAll_append, applyAll_append, restores.mem_applyAll_iff,
    revokes.mem_applyAll_iff, mem_applyAll_of_settled updated, deletes.mem_applyAll_iff]

end Pure

end ItemStore
