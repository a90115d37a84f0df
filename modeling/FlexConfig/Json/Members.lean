import FlexConfig.Json.Value
import Mathlib.Data.Char
import Mathlib.Data.List.Lex

/-! # Members of objects

The library keeps an object as a map, so that a name has one member and the members are
visited in the order of their names.
-/

namespace FlexConfig.Json

mutual

/-- Every object in a value is a map kept in the order of its names. -/
def Sorted : Json → Prop
  | .null | .bool _ | .number _ | .string _ => True
  | .array elements => SortedElements elements
  | .object members => (Keyed.keys members).Pairwise (· < ·) ∧ SortedMembers members

def SortedElements : List Json → Prop
  | [] => True
  | element :: rest => Sorted element ∧ SortedElements rest

def SortedMembers : List (Str × Json) → Prop
  | [] => True
  | (_, value) :: rest => Sorted value ∧ SortedMembers rest

end

mutual

def decideSorted : ∀ json : Json, Decidable json.Sorted
  | .null | .bool _ | .number _ | .string _ => isTrue trivial
  | .array elements => decideSortedElements elements
  | .object members => @instDecidableAnd _ _ inferInstance (decideSortedMembers members)

def decideSortedElements : ∀ elements : List Json, Decidable (SortedElements elements)
  | [] => isTrue trivial
  | element :: rest => @instDecidableAnd _ _ (decideSorted element) (decideSortedElements rest)

def decideSortedMembers : ∀ members : List (Str × Json), Decidable (SortedMembers members)
  | [] => isTrue trivial
  | (_, value) :: rest => @instDecidableAnd _ _ (decideSorted value) (decideSortedMembers rest)

end

instance (json : Json) : Decidable json.Sorted := decideSorted json

/-- The value that a path of names leads to from member to member. -/
def member (json : Json) : List Str → Option Json
  | [] => some json
  | name :: rest => (json.find name).bind fun value => value.member rest

/-- The members of an object. -/
def fields : Json → List (Str × Json)
  | .object members => members
  | _ => []

/-- The entries of a keyword whose value is an object. -/
def table (jschema : Json) (keyword : Str) : List (Str × Json) :=
  match jschema.find keyword with
  | some (.object entries) => entries
  | _ => []

/-- The values of an object in order are in order. The induction is on its members. -/
theorem sorted_of_mem : ∀ {members : List (Str × Json)}, SortedMembers members →
    ∀ entry ∈ members, entry.2.Sorted
  | [], _, _, impossible => by cases impossible
  | (_, _) :: _, sorted, _, member => by
      rcases List.mem_cons.mp member with rfl | later
      · exact sorted.1
      · exact sorted_of_mem sorted.2 _ later

theorem sorted_of_mem_elements : ∀ {elements : List Json}, SortedElements elements →
    ∀ element ∈ elements, element.Sorted
  | [], _, _, impossible => by cases impossible
  | _ :: _, sorted, _, member => by
      rcases List.mem_cons.mp member with rfl | later
      · exact sorted.1
      · exact sorted_of_mem_elements sorted.2 _ later

theorem sortedElements_of_mem {elements : List Json} (sorted : ∀ element ∈ elements, element.Sorted) :
    SortedElements elements := by
  induction elements with
  | nil => exact trivial
  | cons element rest ih =>
      obtain ⟨here, later⟩ := List.forall_mem_cons.mp sorted
      exact ⟨here, ih later⟩

theorem Sorted.of_find {json value : Json} {name : Str} (sorted : json.Sorted)
    (found : json.find name = some value) : value.Sorted := by
  cases json with
  | object members => exact sorted_of_mem sorted.2 _ (Keyed.mem_of_find found)
  | null | bool | number | string | array => cases found

/-- The fields of a document in order are in order, those of one that is no object being none. -/
theorem Sorted.fields {json : Json} (sorted : json.Sorted) :
    (Keyed.keys json.fields).Pairwise (· < ·) := by
  cases json with
  | object members => exact sorted.1
  | null | bool | number | string | array => exact .nil

/-- The entries of a keyword are in order, and so are their values. -/
theorem Sorted.table {jschema : Json} {keyword : Str} (sorted : jschema.Sorted) :
    (Keyed.keys (jschema.table keyword)).Pairwise (· < ·) ∧
      ∀ entry ∈ jschema.table keyword, entry.2.Sorted := by
  unfold Json.table
  split
  · next entries found =>
      have inner := sorted.of_find found
      exact ⟨inner.1, sorted_of_mem inner.2⟩
  · exact ⟨.nil, fun _ impossible => by cases impossible⟩

/-- A keyword with an entry has an object as its value. -/
theorem find_table {jschema value : Json} {keyword name : Str}
    (found : Keyed.find name (jschema.table keyword) = some value) :
    jschema.find keyword = some (.object (jschema.table keyword)) := by
  unfold Json.table at found ⊢
  split
  · next entries isTable => exact isTable
  · next other =>
      split at found
      · next entries isTable => exact (other entries isTable).elim
      · cases found

section Size

theorem sizeOf_find {members : List (Str × Json)} {name : Str} {value : Json}
    (found : Keyed.find name members = some value) : sizeOf value < sizeOf members := by
  have smaller := List.sizeOf_lt_of_mem (Keyed.mem_of_find found)
  simp only [Prod.mk.sizeOf_spec] at smaller
  omega

/-- An entry of a keyword is smaller than the schema, so that a recursion into it ends. -/
theorem sizeOf_of_mem_table {jschema : Json} {keyword : Str} {entry : Str × Json}
    (member : entry ∈ jschema.table keyword) : sizeOf entry.2 < sizeOf jschema := by
  unfold Json.table at member
  split at member
  · next entries found =>
      cases jschema with
      | object members =>
          have outer := sizeOf_find found
          have inner := List.sizeOf_lt_of_mem member
          obtain ⟨name, value⟩ := entry
          simp only [Prod.mk.sizeOf_spec, Json.object.sizeOf_spec] at outer inner ⊢
          omega
      | null | bool | number | string | array => cases found
  · cases member

end Size

end FlexConfig.Json
