import Mathlib.Data.List.Basic
import Mathlib.Data.List.Perm.Basic
import Mathlib.Order.Defs.Unbundled

/-! # Ordered association lists

A map whose iteration order matters is a list of entries kept in key order, and a
set likewise is a list kept in order. Insertion finds the place of a key by
comparing, and replaces the value a key already has.
-/

namespace Keyed

variable {κ α β : Type*}

/-- The value a key has. -/
def find [DecidableEq κ] (key : κ) : List (κ × α) → Option α
  | [] => none
  | (other, value) :: rest => if key = other then some value else find key rest

/-- Give a key a value, in place of the value it had or at its place in the order. -/
def insert [DecidableEq κ] [LT κ] [DecidableLT κ] (key : κ) (value : α) :
    List (κ × α) → List (κ × α)
  | [] => [(key, value)]
  | (other, old) :: rest =>
    if key = other then (key, value) :: rest
    else if key < other then (key, value) :: (other, old) :: rest
    else (other, old) :: insert key value rest

/-- Remove a key. -/
def erase [DecidableEq κ] (key : κ) : List (κ × α) → List (κ × α)
  | [] => []
  | (other, value) :: rest =>
    if key = other then rest else (other, value) :: erase key rest

/-- Add a member to an ordered set. -/
def add [DecidableEq κ] [LT κ] [DecidableLT κ] (key : κ) : List κ → List κ
  | [] => [key]
  | other :: rest =>
    if key = other then other :: rest
    else if key < other then key :: other :: rest
    else other :: add key rest

/-- The keys of a list of entries. -/
def keys (entries : List (κ × α)) : List κ := entries.map Prod.fst

section Lookup

variable [DecidableEq κ]

@[simp] theorem find_nil (key : κ) : find key ([] : List (κ × α)) = none := rfl

theorem find_cons (key other : κ) (value : α) (rest : List (κ × α)) :
    find key ((other, value) :: rest) = if key = other then some value else find key rest := rfl

theorem mem_of_find {key : κ} {value : α} {entries : List (κ × α)}
    (found : find key entries = some value) : (key, value) ∈ entries := by
  induction entries with
  | nil => cases found
  | cons entry rest ih =>
      obtain ⟨other, old⟩ := entry
      rw [find_cons] at found
      split at found
      · next same =>
          cases found
          rw [same]
          exact List.mem_cons_self
      · exact List.mem_cons_of_mem _ (ih found)

/-- A key is found exactly when it is one of the keys. -/
theorem find_isSome_iff {key : κ} {entries : List (κ × α)} :
    (find key entries).isSome ↔ key ∈ keys entries := by
  induction entries with
  | nil => simp [keys]
  | cons entry rest ih =>
      obtain ⟨other, old⟩ := entry
      rw [find_cons]
      by_cases same : key = other
      · simp [same, keys]
      · simp only [same, ↓reduceIte, ih, keys, List.map_cons, List.mem_cons, false_or]

theorem find_eq_none_iff {key : κ} {entries : List (κ × α)} :
    find key entries = none ↔ key ∉ keys entries := by
  rw [← find_isSome_iff]
  cases find key entries <;> simp

/-- What is found among the entries whose keys pass a test. -/
theorem find_filter (test : κ → Bool) (key : κ) (entries : List (κ × α)) :
    find key (entries.filter fun entry => test entry.1) =
      if test key then find key entries else none := by
  induction entries with
  | nil => exact (ite_self none).symm
  | cons entry rest ih =>
      obtain ⟨other, value⟩ := entry
      rw [List.filter_cons, find_cons]
      by_cases same : key = other
      · subst same
        cases passes : test key with
        | true => rw [if_pos rfl, if_pos rfl, find_cons, if_pos rfl, if_pos rfl]
        | false => rw [if_neg Bool.false_ne_true, if_neg Bool.false_ne_true, ih, passes,
            if_neg Bool.false_ne_true]
      · rw [if_neg same]
        cases test other with
        | true => rw [if_pos rfl, find_cons, if_neg same, ih]
        | false => rw [if_neg Bool.false_ne_true, ih]

theorem erase_sublist (key : κ) (entries : List (κ × α)) : (erase key entries).Sublist entries := by
  induction entries with
  | nil => exact List.Sublist.slnil
  | cons entry rest ih =>
      unfold erase
      split
      · exact List.sublist_cons_self _ _
      · exact ih.cons_cons _

/-- Erasing keeps the keys in order. -/
theorem pairwise_keys_erase [LT κ] {key : κ} {entries : List (κ × α)}
    (sorted : (keys entries).Pairwise (· < ·)) : (keys (erase key entries)).Pairwise (· < ·) :=
  sorted.sublist ((erase_sublist key entries).map Prod.fst)

end Lookup

theorem nodup_of_sorted [LT κ] [IsStrictOrder κ (· < ·)] {entries : List (κ × α)}
    (sorted : (keys entries).Pairwise (· < ·)) : entries.Nodup := by
  refine (List.pairwise_map.mp sorted).imp ?_
  rintro entry other less rfl
  exact irrefl _ less

section Sorted

variable [DecidableEq κ] [LT κ] [IsStrictOrder κ (· < ·)] {first second : List (κ × α)}

/-- In a sorted list of entries an entry is found under its key. -/
theorem find_eq_some_iff (sorted : (keys first).Pairwise (· < ·)) {key : κ} {value : α} :
    find key first = some value ↔ (key, value) ∈ first := by
  induction first with
  | nil => exact iff_of_false nofun List.not_mem_nil
  | cons entry rest ih =>
      obtain ⟨below, restSorted⟩ := List.pairwise_cons.mp sorted
      rw [find_cons, List.mem_cons]
      by_cases same : key = entry.1
      · have absent : (key, value) ∉ rest := fun later =>
          irrefl key ((same ▸ below) key (List.mem_map_of_mem later))
        rw [if_pos same, or_iff_left absent, Prod.ext_iff, Option.some_inj]
        exact ⟨fun here => ⟨same, here.symm⟩, fun both => both.2.symm⟩
      · rw [if_neg same, ih restSorted, or_iff_right fun here => same (congrArg Prod.fst here)]

/-- Two sorted lists of entries with the same values under all keys are equal. -/
theorem eq_of_find (firstSorted : (keys first).Pairwise (· < ·))
    (secondSorted : (keys second).Pairwise (· < ·))
    (same : ∀ key, find key first = find key second) : first = second := by
  have entries : first.Perm second := by
    refine (List.perm_ext_iff_of_nodup (nodup_of_sorted firstSorted)
      (nodup_of_sorted secondSorted)).mpr fun entry => ?_
    rw [← find_eq_some_iff firstSorted, ← find_eq_some_iff secondSorted, same]
  have apart : ∀ left right : κ × α, left ∈ first → right ∈ second → left.1 < right.1 →
      right.1 < left.1 → left = right :=
    fun left right _ _ below above => (irrefl _ (IsTrans.trans _ _ _ below above)).elim
  exact entries.eq_of_pairwise apart (List.pairwise_map.mp firstSorted)
    (List.pairwise_map.mp secondSorted)

/-- In a sorted list an erased key has no value, and no other key loses its own. -/
theorem find_erase {entries : List (κ × α)} (sorted : (keys entries).Pairwise (· < ·))
    (key query : κ) :
    find query (erase key entries) = if query = key then none else find query entries := by
  induction entries with
  | nil => exact (ite_self none).symm
  | cons entry rest ih =>
      obtain ⟨other, value⟩ := entry
      obtain ⟨below, restSorted⟩ := List.pairwise_cons.mp sorted
      unfold erase
      by_cases here : key = other
      · rw [if_pos here, find_cons]
        by_cases same : query = key
        · have absent : query ∉ keys rest := by
            intro member
            have less : other < query := below query member
            rw [same, here] at less
            exact irrefl other less
          rw [if_pos same, find_eq_none_iff.mpr absent]
        · rw [if_neg same, if_neg fun atTop => same (atTop.trans here.symm)]
      · rw [if_neg here, find_cons, find_cons, ih restSorted]
        by_cases same : query = other
        · rw [if_pos same, if_pos same, if_neg fun asked => here (asked.symm.trans same)]
        · rw [if_neg same, if_neg same]

end Sorted

section Insert

variable [DecidableEq κ] [LT κ] [DecidableLT κ]

/-- An inserted key has the inserted value. -/
@[simp] theorem find_insert_self (key : κ) (value : α) (entries : List (κ × α)) :
    find key (insert key value entries) = some value := by
  induction entries with
  | nil => simp [insert, find_cons]
  | cons entry rest ih =>
      obtain ⟨other, old⟩ := entry
      unfold insert
      split
      · simp [find_cons]
      · next differs =>
          split
          · simp [find_cons]
          · simp [find_cons, differs, ih]

/-- Inserting a key leaves the value of every other key. -/
theorem find_insert_of_ne {key query : κ} (differs : query ≠ key) (value : α)
    (entries : List (κ × α)) : find query (insert key value entries) = find query entries := by
  induction entries with
  | nil => simp [insert, find_cons, differs]
  | cons entry rest ih =>
      obtain ⟨other, old⟩ := entry
      unfold insert
      split
      · next same =>
          subst same
          simp [find_cons, differs]
      · split
        · simp [find_cons, differs]
        · simp only [find_cons, ih]

theorem find_insert (key query : κ) (value : α) (entries : List (κ × α)) :
    find query (insert key value entries) =
      if query = key then some value else find query entries := by
  split
  · next same =>
      subst same
      exact find_insert_self query value entries
  · next differs => exact find_insert_of_ne differs value entries

theorem mem_keys_insert {key query : κ} {value : α} {entries : List (κ × α)} :
    query ∈ keys (insert key value entries) ↔ query = key ∨ query ∈ keys entries := by
  rw [← find_isSome_iff, ← find_isSome_iff, find_insert]
  split <;> simp [*]

/-- Insertion keeps the keys in order. -/
theorem pairwise_keys_insert [IsStrictTotalOrder κ (· < ·)] {key : κ} {value : α}
    {entries : List (κ × α)} (sorted : (keys entries).Pairwise (· < ·)) :
    (keys (insert key value entries)).Pairwise (· < ·) := by
  induction entries with
  | nil => exact List.pairwise_singleton _ _
  | cons entry rest ih =>
      obtain ⟨other, old⟩ := entry
      obtain ⟨below, restSorted⟩ := List.pairwise_cons.mp sorted
      unfold insert
      by_cases same : key = other
      · rw [if_pos same]
        exact List.pairwise_cons.mpr ⟨fun query member => same ▸ below query member, restSorted⟩
      · rw [if_neg same]
        by_cases before : key < other
        · rw [if_pos before]
          refine List.pairwise_cons.mpr ⟨fun query member => ?_, sorted⟩
          rcases List.mem_cons.mp member with here | later
          · exact here ▸ before
          · exact IsTrans.trans _ _ _ before (below query later)
        · rw [if_neg before]
          refine List.pairwise_cons.mpr ⟨fun query member => ?_, ih restSorted⟩
          rcases mem_keys_insert.mp member with here | later
          · rcases trichotomous_of (· < ·) key other with less | equal | greater
            · exact absurd less before
            · exact absurd equal same
            · exact here ▸ greater
          · exact below query later

/-- Inserting the value a key has changes nothing. -/
theorem insert_of_find [IsStrictTotalOrder κ (· < ·)] {key : κ} {value : α}
    {entries : List (κ × α)} (sorted : (keys entries).Pairwise (· < ·))
    (found : find key entries = some value) : insert key value entries = entries := by
  refine eq_of_find (pairwise_keys_insert sorted) sorted fun query => ?_
  rw [find_insert]
  split
  · next same => rw [same, found]
  · rfl

theorem insert_insert (key : κ) (first second : α) (entries : List (κ × α)) :
    insert key second (insert key first entries) = insert key second entries := by
  induction entries with
  | nil => simp [insert]
  | cons entry rest ih =>
      obtain ⟨other, old⟩ := entry
      by_cases same : key = other
      · simp [insert, same]
      · by_cases before : key < other
        · simp [insert, same, before]
        · simp [insert, same, before, ih]

/-- A key that keeps its value where it is, in a list in order. -/
def Kept (key : κ) (entries : List (κ × α)) : Prop :=
  ∃ value, find key entries = some value ∧ insert key value entries = entries

theorem kept_insert_self (key : κ) (value : α) (entries : List (κ × α)) :
    Kept key (insert key value entries) :=
  ⟨value, find_insert_self key value entries, insert_insert key value value entries⟩

theorem Kept.insert [IsStrictOrder κ (· < ·)] {key : κ} {entries : List (κ × α)}
    (kept : Kept key entries) (other : κ) (value : α) : Kept key (insert other value entries) := by
  by_cases same : key = other
  · rw [same]
    exact kept_insert_self other value entries
  obtain ⟨own, found, stays⟩ := kept
  refine ⟨own, (find_insert_of_ne same value entries).trans found, ?_⟩
  induction entries with
  | nil => cases found
  | cons entry rest ih =>
      obtain ⟨here, old⟩ := entry
      by_cases top : key = here
      · subst top
        have sameValue : some old = some own := by rw [← found, find_cons, if_pos rfl]
        cases sameValue
        by_cases before : other < key
        · have behind : ¬ key < other := fun less => irrefl key (IsTrans.trans _ _ _ less before)
          simp [Keyed.insert, Ne.symm same, same, before, behind]
        · simp [Keyed.insert, Ne.symm same, before]
      · rw [find_cons, if_neg top] at found
        have behind : ¬ key < here := by
          intro less
          rw [Keyed.insert, if_neg top, if_pos less] at stays
          exact List.cons_ne_self _ _ stays
        rw [Keyed.insert, if_neg top, if_neg behind, List.cons_inj_right] at stays
        have inner := ih found stays
        by_cases replaces : other = here
        · subst replaces
          simp [Keyed.insert, same, behind, stays]
        · by_cases before : other < here
          · have later : ¬ key < other := fun less => behind (IsTrans.trans _ _ _ less before)
            simp [Keyed.insert, replaces, before, same, later, top, behind, stays]
          · simp [Keyed.insert, replaces, before, top, behind, inner]

theorem mem_add {key query : κ} {members : List κ} :
    query ∈ add key members ↔ query = key ∨ query ∈ members := by
  induction members with
  | nil => simp [add]
  | cons other rest ih =>
      unfold add
      split
      · next same =>
          subst same
          simp
      · split
        · simp
        · simp only [List.mem_cons, ih]
          exact or_left_comm

theorem pairwise_add [IsStrictTotalOrder κ (· < ·)] {key : κ} {members : List κ}
    (sorted : members.Pairwise (· < ·)) : (add key members).Pairwise (· < ·) := by
  induction members with
  | nil => exact List.pairwise_singleton _ _
  | cons other rest ih =>
      obtain ⟨least, sortedRest⟩ := List.pairwise_cons.mp sorted
      unfold add
      split
      · exact sorted
      · next differs =>
          split
          · next less =>
              refine List.pairwise_cons.mpr ⟨fun later member => ?_, sorted⟩
              rcases List.mem_cons.mp member with rfl | inRest
              · exact less
              · exact IsTrans.trans _ _ _ less (least later inRest)
          · next notLess =>
              refine List.pairwise_cons.mpr ⟨fun later member => ?_, ih sortedRest⟩
              rcases mem_add.mp member with rfl | inRest
              · exact (trichotomous_of (· < ·) later other).resolve_left notLess |>.resolve_left differs
              · exact least later inRest

end Insert

end Keyed

/-! ## Overlaying partial maps

Laying one partial map under another fills the gaps of the upper one. Where maps agree on the
keys they share, the result of laying them under each other one by one is their union, whatever
their order.
-/

namespace Overlay

variable {κ α : Type*}

/-- Two partial maps have the same value at every key that both have. -/
def Agree (first second : κ → Option α) : Prop :=
  ∀ key left right, first key = some left → second key = some right → left = right

/-- A partial map with another one in its gaps. -/
def overlaid (upper lower : κ → Option α) : κ → Option α := fun key => (upper key).or (lower key)

/-- A partial map has what some of the maps have, and nothing else. -/
def IsUnion (maps : List (κ → Option α)) (union : κ → Option α) : Prop :=
  ∀ key value, union key = some value ↔ ∃ map ∈ maps, map key = some value

theorem IsUnion.unique {maps : List (κ → Option α)} {first second : κ → Option α}
    (one : IsUnion maps first) (other : IsUnion maps second) : first = second := by
  funext key
  exact Option.ext fun value => (one key value).trans (other key value).symm

/-- The union does not depend on the order of the maps. -/
theorem IsUnion.perm {maps others : List (κ → Option α)} {union : κ → Option α}
    (isUnion : IsUnion maps union) (same : others.Perm maps) : IsUnion others union := by
  intro key value
  rw [isUnion key value]
  exact ⟨fun found => found.imp fun _ both => ⟨same.mem_iff.mpr both.1, both.2⟩,
    fun found => found.imp fun _ both => ⟨same.mem_iff.mp both.1, both.2⟩⟩

theorem isUnion_singleton (map : κ → Option α) : IsUnion [map] map := by
  intro key value
  simp

/-- A map that agrees with each of some maps agrees with their union. -/
theorem IsUnion.agree {maps : List (κ → Option α)} {union lower : κ → Option α}
    (isUnion : IsUnion maps union) (agrees : ∀ map ∈ maps, Agree map lower) :
    Agree union lower := by
  intro key left right inUnion inLower
  obtain ⟨map, member, found⟩ := (isUnion key left).mp inUnion
  exact agrees map member key left right found inLower

/-- Laying a map that agrees with a union under it takes the map into the union. -/
theorem IsUnion.overlaid {maps : List (κ → Option α)} {union lower : κ → Option α}
    (isUnion : IsUnion maps union) (agrees : Agree union lower) :
    IsUnion (lower :: maps) (overlaid union lower) := by
  intro key value
  unfold Overlay.overlaid
  simp only [List.mem_cons, exists_eq_or_imp]
  cases upper : union key with
  | none =>
      have absent : ¬ ∃ map ∈ maps, map key = some value := by
        rw [← isUnion key value, upper]
        exact nofun
      rw [Option.none_or, or_iff_left absent]
  | some other =>
      rw [Option.some_or, ← isUnion key value, upper]
      refine ⟨.inr, fun found => ?_⟩
      rcases found with inLower | same
      · rw [agrees key other value upper inLower]
      · exact same

end Overlay
