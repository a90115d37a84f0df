import FlexConfig.Json.Members

/-! # The shape of a document

What a document is made of can be told path by path: at a path of names there is an object, a
value that is none, or nothing. A document whose members are kept in order is determined by its
shape, and two documents are compatible when their shapes agree.
-/

namespace FlexConfig.Json

/-- What stands at a path: an object, whatever members it has, or another value. -/
inductive Shape where
  | object
  | value (json : Json)

/-- The shape of a value at its top. -/
def shape : Json → Shape
  | .object _ => .object
  | json => .value json

/-- What a document has at a path. -/
def shapeAt (json : Json) (path : List Str) : Option Shape := (json.member path).map shape

def IsObject (json : Json) : Prop := json.shape = .object

/-- At every path that two documents have, the values are equal or both are objects. Paths
through an array need no mention: there the arrays are equal. -/
def Compatible (first second : Json) : Prop :=
  ∀ path left right, first.member path = some left → second.member path = some right →
    left = right ∨ left.IsObject ∧ right.IsObject

theorem shape_eq_iff {left right : Json} :
    left.shape = right.shape ↔ left = right ∨ left.IsObject ∧ right.IsObject := by
  unfold IsObject
  constructor
  · intro same
    by_cases object : left.shape = .object
    · exact .inr ⟨object, same.symm.trans object⟩
    · refine .inl ?_
      cases left with
      | object members => exact absurd rfl object
      | null | bool | number | string | array =>
          cases right <;> cases same
          rfl
  · intro cases_
    rcases cases_ with same | ⟨left_object, right_object⟩
    · rw [same]
    · rw [left_object, right_object]

/-- Documents are compatible exactly when their shapes agree. -/
theorem compatible_iff {first second : Json} :
    Compatible first second ↔ Overlay.Agree first.shapeAt second.shapeAt := by
  unfold Compatible Overlay.Agree shapeAt
  refine forall_congr' fun path => ?_
  constructor
  · intro compatible left right inFirst inSecond
    obtain ⟨x, foundFirst, shapeFirst⟩ := Option.map_eq_some_iff.mp inFirst
    obtain ⟨y, foundSecond, shapeSecond⟩ := Option.map_eq_some_iff.mp inSecond
    rw [← shapeFirst, ← shapeSecond]
    exact shape_eq_iff.mpr (compatible x y foundFirst foundSecond)
  · intro agree left right inFirst inSecond
    exact shape_eq_iff.mp (agree _ _ (by rw [inFirst]; rfl) (by rw [inSecond]; rfl))

@[simp] theorem shapeAt_nil (json : Json) : json.shapeAt [] = some json.shape := rfl

theorem shapeAt_cons (json : Json) (name : Str) (rest : List Str) :
    json.shapeAt (name :: rest) = (json.find name).bind fun value => value.shapeAt rest := by
  unfold shapeAt
  rw [member, Option.map_bind]
  rfl

theorem shapeAt_append (json : Json) (path rest : List Str) :
    json.shapeAt (path ++ rest) = (json.member path).bind fun value => value.shapeAt rest := by
  induction path generalizing json with
  | nil => rfl
  | cons name others ih =>
      rw [List.cons_append, shapeAt_cons, member]
      cases json.find name with
      | none => rfl
      | some value => exact ih value

/-- Below a path with nothing there is nothing. -/
theorem shapeAt_append_of_none {json : Json} {path : List Str} (absent : json.shapeAt path = none)
    (rest : List Str) : json.shapeAt (path ++ rest) = none := by
  rw [shapeAt_append, Option.map_eq_none_iff.mp absent]
  rfl

/-- Only an object has something below it. -/
theorem isObject_of_shapeAt_cons {json : Json} {name : Str} {rest : List Str} {shape : Shape}
    (found : json.shapeAt (name :: rest) = some shape) : ∃ members, json = .object members := by
  rw [shapeAt_cons] at found
  cases json with
  | object members => exact ⟨members, rfl⟩
  | null | bool | number | string | array => cases found

/-- A document whose members are kept in order is determined by its shape. -/
theorem eq_of_shapeAt {first second : Json} (firstSorted : first.Sorted)
    (secondSorted : second.Sorted) (same : ∀ path, first.shapeAt path = second.shapeAt path) :
    first = second := by
  have top : first.shape = second.shape := Option.some.inj (same [])
  rcases shape_eq_iff.mp top with equal | ⟨firstObject, secondObject⟩
  · exact equal
  cases first with
  | null | bool | number | string | array => cases firstObject
  | object members =>
    cases second with
    | null | bool | number | string | array => cases secondObject
    | object others =>
      refine congrArg object (Keyed.eq_of_find firstSorted.1 secondSorted.1 fun name => ?_)
      have below : ∀ path, ((Keyed.find name members).bind fun value => value.shapeAt path) =
          (Keyed.find name others).bind fun value => value.shapeAt path := by
        intro path
        have here := same (name :: path)
        rw [shapeAt_cons, shapeAt_cons] at here
        exact here
      cases found : Keyed.find name members with
      | none =>
          cases other : Keyed.find name others with
          | none => rfl
          | some value =>
              have impossible := below []
              rw [found, other] at impossible
              cases impossible
      | some value =>
          cases other : Keyed.find name others with
          | none =>
              have impossible := below []
              rw [found, other] at impossible
              cases impossible
          | some counterpart =>
              have smaller : sizeOf value < sizeOf (object members) := by
                have inside := sizeOf_find found
                simp only [object.sizeOf_spec]
                omega
              refine congrArg some (eq_of_shapeAt (firstSorted.of_find found)
                (secondSorted.of_find other) fun path => ?_)
              have here := below path
              rw [found, other] at here
              exact here
termination_by sizeOf first

section Check

mutual

/-- A test for compatible documents. -/
def agreesWith : Json → Json → Bool
  | .object members, other =>
    match other with
    | .object others => agreeWithin members others
    | _ => false
  | json, other => decide (json = other)

/-- The members that two objects share agree. -/
def agreeWithin : List (Str × Json) → List (Str × Json) → Bool
  | [], _ => true
  | (name, value) :: rest, others =>
    (Keyed.find name others).all (fun other => agreesWith value other) && agreeWithin rest others

end

theorem Compatible.refl (json : Json) : Compatible json json := by
  intro path left right inFirst inSecond
  exact .inl (Option.some.inj (inFirst.symm.trans inSecond))

/-- Objects are compatible when what they have under the same names is. -/
theorem compatible_object {members others : List (Str × Json)}
    (inside : ∀ name value other, Keyed.find name members = some value →
      Keyed.find name others = some other → Compatible value other) :
    Compatible (object members) (object others) := by
  intro path left right inFirst inSecond
  cases path with
  | nil =>
      cases inFirst
      cases inSecond
      exact .inr ⟨rfl, rfl⟩
  | cons name rest =>
      obtain ⟨value, found, below⟩ := Option.bind_eq_some_iff.mp inFirst
      obtain ⟨other, counterpart, under⟩ := Option.bind_eq_some_iff.mp inSecond
      exact inside name value other found counterpart rest left right below under

mutual

theorem compatible_of_agreesWith : ∀ {first second : Json}, agreesWith first second = true →
    Compatible first second
  | .object _, .object _, agrees => compatible_object fun _ _ _ found counterpart =>
      compatible_of_agreeWithin agrees found counterpart
  | .object _, .null, agrees | .object _, .bool _, agrees | .object _, .number _, agrees
  | .object _, .string _, agrees | .object _, .array _, agrees => by cases agrees
  | .null, _, agrees | .bool _, _, agrees | .number _, _, agrees | .string _, _, agrees
  | .array _, _, agrees => of_decide_eq_true agrees ▸ Compatible.refl _

theorem compatible_of_agreeWithin : ∀ {members others : List (Str × Json)},
    agreeWithin members others = true → ∀ {name : Str} {value other : Json},
      Keyed.find name members = some value → Keyed.find name others = some other →
        Compatible value other
  | [], _, _, _, _, _, found, _ => by cases found
  | (key, own) :: rest, others, agrees, name, value, other, found, counterpart => by
      obtain ⟨here, later⟩ := Bool.and_eq_true_iff.mp agrees
      rw [Keyed.find_cons] at found
      by_cases same : name = key
      · rw [if_pos same] at found
        cases found
        rw [← same, counterpart] at here
        exact compatible_of_agreesWith here
      · rw [if_neg same] at found
        exact compatible_of_agreeWithin later found counterpart

end

end Check

section Write

theorem sortedMembers_of_mem {members : List (Str × Json)}
    (sorted : ∀ entry ∈ members, entry.2.Sorted) : SortedMembers members := by
  induction members with
  | nil => exact trivial
  | cons entry rest ih =>
      obtain ⟨here, later⟩ := List.forall_mem_cons.mp sorted
      exact ⟨here, ih later⟩

/-- An object stays in order when a member is written. -/
theorem Sorted.insert {members : List (Str × Json)} {value : Json} (name : Str)
    (sorted : (object members).Sorted) (inner : value.Sorted) :
    (object (Keyed.insert name value members)).Sorted := by
  have keys : (Keyed.keys (Keyed.insert name value members)).Pairwise (· < ·) :=
    Keyed.pairwise_keys_insert sorted.1
  refine ⟨keys, sortedMembers_of_mem fun entry member => ?_⟩
  have found := (Keyed.find_eq_some_iff keys).mpr (show (entry.1, entry.2) ∈ _ from member)
  rw [Keyed.find_insert] at found
  split at found
  · cases found
    exact inner
  · exact sorted.of_find (show (object members).find entry.1 = some entry.2 from found)

/-- Members stay in order when one of them is erased. -/
theorem Sorted.erase {members : List (Str × Json)} (sorted : (object members).Sorted) (key : Str) :
    (object (Keyed.erase key members)).Sorted :=
  ⟨Keyed.pairwise_keys_erase sorted.1, sortedMembers_of_mem fun entry member =>
    sorted_of_mem sorted.2 entry ((Keyed.erase_sublist key members).subset member)⟩

end Write

end FlexConfig.Json
