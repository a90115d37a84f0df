import FlexConfig.Foundation.Keyed
import Mathlib.Data.List.Induction

/-! # Entries inserted one after the other

A list of entries that are inserted into a map in turn leaves the value every key was given
last. The values can be changed before or after.
-/

namespace Keyed

variable {κ α β : Type*}

/-- Change the values and keep the keys. -/
def mapValues (change : α → β) (entries : List (κ × α)) : List (κ × β) :=
  entries.map fun entry => (entry.1, change entry.2)

theorem keys_mapValues (change : α → β) (entries : List (κ × α)) :
    keys (mapValues change entries) = keys entries := by
  rw [keys, mapValues, List.map_map]
  rfl

theorem mem_of_mem_erase [DecidableEq κ] {key : κ} {entries : List (κ × α)} {entry : κ × α}
    (member : entry ∈ erase key entries) : entry ∈ entries := by
  induction entries with
  | nil => cases member
  | cons first rest ih =>
      rw [erase] at member
      split at member
      · exact List.mem_cons_of_mem _ member
      · exact (List.mem_cons.mp member).elim (fun here => here ▸ List.mem_cons_self)
          fun later => List.mem_cons_of_mem _ (ih later)

section Insert

variable [DecidableEq κ] [LT κ] [DecidableLT κ]

theorem mapValues_insert (change : α → β) (key : κ) (value : α) (entries : List (κ × α)) :
    mapValues change (insert key value entries) =
      insert key (change value) (mapValues change entries) := by
  induction entries with
  | nil => rfl
  | cons entry rest ih =>
      obtain ⟨other, old⟩ := entry
      change _ = insert key (change value) ((other, change old) :: mapValues change rest)
      rw [insert, insert, ← ih]
      split
      · rfl
      · split
        · rfl
        · rfl

/-- A key has its place behind smaller ones. -/
theorem insert_append [IsStrictOrder κ (· < ·)] {key : κ} {value : α}
    {before rest : List (κ × α)} (less : ∀ other ∈ keys before, other < key) :
    insert key value (before ++ rest) = before ++ insert key value rest := by
  induction before with
  | nil => rfl
  | cons entry before ih =>
      obtain ⟨other, old⟩ := entry
      obtain ⟨here, later⟩ := List.forall_mem_cons.mp less
      have differs : key ≠ other := by
        rintro rfl
        exact irrefl _ here
      have behind : ¬ key < other := fun greater => irrefl _ (IsTrans.trans _ _ _ here greater)
      rw [List.cons_append, insert, if_neg differs, if_neg behind, ih later, List.cons_append]

theorem mem_of_mem_insert {key : κ} {value : α} {entries : List (κ × α)} {entry : κ × α}
    (member : entry ∈ insert key value entries) : entry = (key, value) ∨ entry ∈ entries := by
  induction entries with
  | nil => exact .inl (List.mem_singleton.mp member)
  | cons first rest ih =>
      obtain ⟨other, old⟩ := first
      rw [insert] at member
      split at member
      · exact (List.mem_cons.mp member).imp_right (List.mem_cons_of_mem _)
      · split at member
        · exact List.mem_cons.mp member
        · rcases List.mem_cons.mp member with rfl | later
          · exact .inr List.mem_cons_self
          · exact (ih later).imp_right (List.mem_cons_of_mem _)

/-- Give keys values, one after the other. -/
def insertAll (added entries : List (κ × α)) : List (κ × α) :=
  added.foldl (fun entries entry => insert entry.1 entry.2 entries) entries

theorem insertAll_append (first second entries : List (κ × α)) :
    insertAll (first ++ second) entries = insertAll second (insertAll first entries) :=
  List.foldl_append

theorem mapValues_insertAll (change : α → β) (added entries : List (κ × α)) :
    mapValues change (insertAll added entries) =
      insertAll (mapValues change added) (mapValues change entries) := by
  induction added generalizing entries with
  | nil => rfl
  | cons entry rest ih =>
      refine (ih (insert entry.1 entry.2 entries)).trans ?_
      rw [mapValues_insert]
      rfl

theorem pairwise_keys_insertAll [IsStrictTotalOrder κ (· < ·)] {added entries : List (κ × α)}
    (sorted : (keys entries).Pairwise (· < ·)) :
    (keys (insertAll added entries)).Pairwise (· < ·) := by
  induction added generalizing entries with
  | nil => exact sorted
  | cons entry rest ih => exact ih (pairwise_keys_insert sorted)

theorem mem_of_mem_insertAll {added entries : List (κ × α)} {entry : κ × α}
    (member : entry ∈ insertAll added entries) : entry ∈ added ∨ entry ∈ entries := by
  induction added generalizing entries with
  | nil => exact .inr member
  | cons first rest ih =>
      rcases ih member with later | inserted
      · exact .inl (List.mem_cons_of_mem _ later)
      · rcases mem_of_mem_insert inserted with rfl | present
        · exact .inl List.mem_cons_self
        · exact .inr present

/-- Entries that are in order already stay as they are. -/
theorem insertAll_of_sorted [IsStrictOrder κ (· < ·)] {present added : List (κ × α)}
    (sorted : (keys (present ++ added)).Pairwise (· < ·)) :
    insertAll added present = present ++ added := by
  induction added generalizing present with
  | nil => exact (List.append_nil present).symm
  | cons entry rest ih =>
      have less : ∀ other ∈ keys present, other < entry.1 := by
        intro other member
        rw [keys, List.map_append] at sorted
        exact (List.pairwise_append.mp sorted).2.2 other member entry.1 List.mem_cons_self
      have atEnd : insert entry.1 entry.2 present = present ++ [entry] := by
        have placed := @insert_append _ _ _ _ _ _ entry.1 entry.2 present [] less
        rw [List.append_nil] at placed
        exact placed
      change insertAll rest (insert entry.1 entry.2 present) = _
      rw [atEnd, ih (by rwa [List.append_assoc]), List.append_assoc]
      rfl

/-- The value a key was given last. -/
def lastValue (key : κ) (entries : List (κ × α)) : Option α := find key entries.reverse

/-- A key has the value it was given last. -/
theorem find_insertAll (key : κ) (added : List (κ × α)) :
    find key (insertAll added []) = lastValue key added := by
  induction added using List.reverseRecOn with
  | nil => rfl
  | append_singleton before entry ih =>
      rw [insertAll_append, lastValue, List.reverse_concat]
      change find key (insert entry.1 entry.2 (insertAll before [])) = _
      rw [find_insert, find_cons, ih]
      rfl

/-- A key that was given a value once has this one, and any other what it had. -/
theorem find_insertAll_of_nodup {added entries : List (κ × α)} (distinct : (keys added).Nodup)
    (key : κ) : find key (insertAll added entries) = (find key added).or (find key entries) := by
  induction added generalizing entries with
  | nil => rfl
  | cons entry rest ih =>
      obtain ⟨other, value⟩ := entry
      obtain ⟨fresh, distinctRest⟩ := List.nodup_cons.mp distinct
      change find key (insertAll rest (insert other value entries)) = _
      rw [ih distinctRest, find_insert, find_cons]
      by_cases same : key = other
      · rw [if_pos same, if_pos same, same, find_eq_none_iff.mpr fresh]
        rfl
      · rw [if_neg same, if_neg same]

end Insert

end Keyed
