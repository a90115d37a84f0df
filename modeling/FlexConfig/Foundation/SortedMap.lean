import FlexConfig.Foundation.Keyed
import Mathlib.Data.List.Lex
import Mathlib.Order.Lattice

/-! # Maps kept in key order

A map is a list of entries with strictly increasing keys, so that a key has one entry and
iterating over the entries visits the keys in order.
-/

/-- A finite map whose entries are in the order of their keys. -/
structure SortedMap (κ α : Type) [LinearOrder κ] where
  entries : List (κ × α)
  sorted : (Keyed.keys entries).Pairwise (· < ·)

namespace SortedMap

variable {κ α : Type} [LinearOrder κ]

instance [DecidableEq α] : DecidableEq (SortedMap κ α) := fun first second =>
  decidable_of_iff (first.entries = second.entries) <| by
    cases first
    cases second
    simp

def empty : SortedMap κ α := ⟨[], .nil⟩

/-- The value of a key. -/
def find (map : SortedMap κ α) (key : κ) : Option α := Keyed.find key map.entries

theorem keys_insert_sorted {key : κ} {value : α} {entries : List (κ × α)}
    (sorted : (Keyed.keys entries).Pairwise (· < ·)) :
    (Keyed.keys (Keyed.insert key value entries)).Pairwise (· < ·) :=
  Keyed.pairwise_keys_insert sorted

/-- Give a key a value. -/
def insert (map : SortedMap κ α) (key : κ) (value : α) : SortedMap κ α :=
  ⟨Keyed.insert key value map.entries, keys_insert_sorted map.sorted⟩

/-- Remove a key. -/
def erase (map : SortedMap κ α) (key : κ) : SortedMap κ α :=
  ⟨map.entries.filter fun entry => entry.1 ≠ key,
    map.sorted.sublist (List.filter_sublist.map Prod.fst)⟩

@[simp] theorem find_empty (key : κ) : (empty : SortedMap κ α).find key = none := rfl

theorem find_insert (key query : κ) (value : α) (map : SortedMap κ α) :
    (map.insert key value).find query = if query = key then some value else map.find query :=
  Keyed.find_insert key query value map.entries

theorem mem_entries_iff {map : SortedMap κ α} {key : κ} {value : α} :
    (key, value) ∈ map.entries ↔ map.find key = some value :=
  (Keyed.find_eq_some_iff map.sorted).symm

theorem find_erase (key query : κ) (map : SortedMap κ α) :
    (map.erase key).find query = if query = key then none else map.find query := by
  rw [Option.ext_iff]
  intro value
  rw [← mem_entries_iff, erase, List.mem_filter, mem_entries_iff]
  by_cases same : query = key
  · simp [same]
  · simp [same]

/-- A key that is not there is removed without effect. -/
theorem erase_of_find_eq_none {map : SortedMap κ α} {key : κ} (absent : map.find key = none) :
    map.erase key = map := by
  have kept : map.entries.filter (fun entry => entry.1 ≠ key) = map.entries := by
    refine List.filter_eq_self.mpr fun entry member => decide_eq_true fun same => ?_
    have found : map.find key = some entry.2 := mem_entries_iff.mp (same ▸ member)
    cases absent.symm.trans found
  unfold erase
  congr

/-- The keys whose entries pass a test, in order. -/
def keysWhere (map : SortedMap κ α) (test : α → Bool) : List κ :=
  (map.entries.filter fun entry => test entry.2).map Prod.fst

theorem mem_keysWhere {test : α → Bool} {map : SortedMap κ α} {key : κ} :
    key ∈ map.keysWhere test ↔ ∃ value, map.find key = some value ∧ test value = true := by
  constructor
  · intro member
    obtain ⟨⟨other, value⟩, inside, same⟩ := List.mem_map.mp member
    obtain ⟨entry, passes⟩ := List.mem_filter.mp inside
    exact ⟨value, mem_entries_iff.mp (same ▸ entry), passes⟩
  · intro ⟨value, found, passes⟩
    exact List.mem_map.mpr
      ⟨(key, value), List.mem_filter.mpr ⟨mem_entries_iff.mpr found, passes⟩, rfl⟩

theorem keysWhere_nodup (test : α → Bool) (map : SortedMap κ α) : (map.keysWhere test).Nodup := by
  have increasing : (map.keysWhere test).Pairwise (· < ·) :=
    map.sorted.sublist (List.filter_sublist.map Prod.fst)
  exact increasing.imp fun less => less.ne

end SortedMap
