import FlexConfig.Foundation.Insertion
import FlexConfig.Json.Lexer
import FlexConfig.Json.Shape

/-! # Documents and their tokens

A document is a tree with the numbers as the JSON library keeps them. Its tokens are those of the
JSON grammar, with the members of an object in any order and a key as often as it is written; what
the library keeps of a document has each key once, with the value that was written last.
-/

namespace FlexConfig

/-- `basic_json`: a value with the type of its number. -/
inductive BasicJson (D : Type) where
  | null
  | boolean (value : Bool)
  | number_integer (value : Int64)
  | number_unsigned (value : UInt64)
  | number_float (value : D)
  | string (value : Str)
  | array (elements : List (BasicJson D))
  | object (members : List (Str × BasicJson D))

variable {D : Type} (doubles : Doubles D)

namespace BasicJson

mutual

/-- A document without the types of its numbers. -/
def value : BasicJson D → Json
  | .null => .null
  | .boolean value => .bool value
  | .number_integer value => .number value.toInt
  | .number_unsigned value => .number value.toNat
  | .number_float value => .number (doubles.value value)
  | .string value => .string value
  | .array elements => .array (values elements)
  | .object members => .object (memberValues members)

def values : List (BasicJson D) → List Json
  | [] => []
  | element :: rest => element.value :: values rest

def memberValues : List (Str × BasicJson D) → List (Str × Json)
  | [] => []
  | (name, element) :: rest => (name, element.value) :: memberValues rest

end

mutual

/-- The tokens a document is written with. -/
def tokens : BasicJson D → List (Token D)
  | .null => [.literal_null]
  | .boolean true => [.literal_true]
  | .boolean false => [.literal_false]
  | .number_integer value => [.value_integer value]
  | .number_unsigned value => [.value_unsigned value]
  | .number_float value => [.value_float (some value)]
  | .string value => [.value_string value]
  | .array [] => [.begin_array, .end_array]
  | .array (element :: rest) =>
    .begin_array :: (element.tokens ++ (laterElements rest ++ [.end_array]))
  | .object [] => [.begin_object, .end_object]
  | .object ((name, element) :: rest) =>
    .begin_object :: .value_string name :: .name_separator ::
      (element.tokens ++ (laterMembers rest ++ [.end_object]))

/-- The elements behind the first, each with the comma before it. -/
def laterElements : List (BasicJson D) → List (Token D)
  | [] => []
  | element :: rest => .value_separator :: (element.tokens ++ laterElements rest)

def laterMembers : List (Str × BasicJson D) → List (Token D)
  | [] => []
  | (name, element) :: rest =>
    .value_separator :: .value_string name :: .name_separator ::
      (element.tokens ++ laterMembers rest)

end

end BasicJson

namespace Json

mutual

/-- What is kept of a document: its members by key, each with the value that came last. -/
def collected : Json → Json
  | .object members => .object (Keyed.insertAll (collectedMembers members) [])
  | .array elements => .array (collectedElements elements)
  | .null => .null
  | .bool value => .bool value
  | .number value => .number value
  | .string value => .string value

def collectedMembers : List (Str × Json) → List (Str × Json)
  | [] => []
  | (name, value) :: rest => (name, value.collected) :: collectedMembers rest

def collectedElements : List Json → List Json
  | [] => []
  | element :: rest => element.collected :: collectedElements rest

end

theorem collectedElements_eq_map (elements : List Json) :
    collectedElements elements = elements.map collected := by
  induction elements with
  | nil => rfl
  | cons element rest ih => rw [collectedElements, ih, List.map_cons]

theorem keys_collectedMembers (members : List (Str × Json)) :
    Keyed.keys (collectedMembers members) = Keyed.keys members := by
  induction members with
  | nil => rfl
  | cons member rest ih => exact congrArg (member.1 :: ·) ih

theorem find_collectedMembers (name : Str) (members : List (Str × Json)) :
    Keyed.find name (collectedMembers members) = (Keyed.find name members).map collected := by
  induction members with
  | nil => rfl
  | cons member rest ih =>
      obtain ⟨other, value⟩ := member
      rw [collectedMembers, Keyed.find_cons, Keyed.find_cons, ih]
      split <;> rfl

mutual

/-- What is kept of a document is in order. -/
theorem sorted_collected : ∀ document : Json, document.collected.Sorted
  | .object members =>
      ⟨Keyed.pairwise_keys_insertAll .nil, sortedMembers_of_mem fun entry member =>
        (Keyed.mem_of_mem_insertAll member).elim (sorted_collected_members members entry) nofun⟩
  | .array elements => sorted_collected_elements elements
  | .null | .bool _ | .number _ | .string _ => trivial

theorem sorted_collected_members : ∀ (members : List (Str × Json)),
    ∀ entry ∈ collectedMembers members, entry.2.Sorted
  | [], _, impossible => nomatch impossible
  | (_, value) :: rest, entry, member => by
      rcases List.mem_cons.mp member with rfl | later
      · exact sorted_collected value
      · exact sorted_collected_members rest entry later

theorem sorted_collected_elements : ∀ elements : List Json,
    SortedElements (collectedElements elements)
  | [] => trivial
  | element :: rest => ⟨sorted_collected element, sorted_collected_elements rest⟩

end

mutual

/-- A document that is in order is kept as it is. -/
theorem collected_of_sorted : ∀ {document : Json}, document.Sorted → document.collected = document
  | .object members, sorted => by
      rw [collected, collectedMembers_of_sorted sorted.2, Keyed.insertAll_of_sorted sorted.1]
      rfl
  | .array elements, sorted => congrArg array (collectedElements_of_sorted sorted)
  | .null, _ | .bool _, _ | .number _, _ | .string _, _ => rfl

theorem collectedMembers_of_sorted : ∀ {members : List (Str × Json)}, SortedMembers members →
    collectedMembers members = members
  | [], _ => rfl
  | (_, _) :: _, sorted => by
      rw [collectedMembers, collected_of_sorted sorted.1, collectedMembers_of_sorted sorted.2]

theorem collectedElements_of_sorted : ∀ {elements : List Json}, SortedElements elements →
    collectedElements elements = elements
  | [], _ => rfl
  | _ :: _, sorted => by
      rw [collectedElements, collected_of_sorted sorted.1, collectedElements_of_sorted sorted.2]

end

end Json

end FlexConfig
