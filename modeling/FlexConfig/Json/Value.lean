import FlexConfig.Foundation.Keyed
import FlexConfig.Foundation.Procedure
import FlexConfig.Foundation.Text

/-! # JSON values

The values of the JSON library the configuration manager works with. An object
keeps its members in key order, which is the order every loop over a schema or a
configuration visits them in.
-/

namespace FlexConfig

/-- Why a routine stopped before its normal end. -/
inductive Halt where
  /-- The routine returned `false` or a null pointer. -/
  | rejected
  /-- An exception left the routine. -/
  | raised
  /-- The process ended through `::exit`. -/
  | exited
  /-- The process died: a null dereference, a failed assertion or an exhausted stack. -/
  | crashed
  deriving DecidableEq

/-- A computation without side effects that may stop early. -/
abbrev Attempt := Except Halt

/-- A JSON value. -/
inductive Json where
  | null
  | bool (value : Bool)
  | number (value : Rat)
  | string (value : Str)
  | array (elements : List Json)
  | object (members : List (Str × Json))

namespace Json

mutual

def decEq : (left right : Json) → Decidable (left = right)
  | .null, .null => isTrue rfl
  | .bool a, .bool b => decidable_of_iff (a = b) (by simp)
  | .number a, .number b => decidable_of_iff (a = b) (by simp)
  | .string a, .string b => decidable_of_iff (a = b) (by simp)
  | .array a, .array b => @decidable_of_iff _ (a = b) (by simp) (decEqElements a b)
  | .object a, .object b => @decidable_of_iff _ (a = b) (by simp) (decEqMembers a b)
  | .null, .bool _ | .null, .number _ | .null, .string _ | .null, .array _ | .null, .object _
  | .bool _, .null | .bool _, .number _ | .bool _, .string _ | .bool _, .array _
  | .bool _, .object _ | .number _, .null | .number _, .bool _ | .number _, .string _
  | .number _, .array _ | .number _, .object _ | .string _, .null | .string _, .bool _
  | .string _, .number _ | .string _, .array _ | .string _, .object _ | .array _, .null
  | .array _, .bool _ | .array _, .number _ | .array _, .string _ | .array _, .object _
  | .object _, .null | .object _, .bool _ | .object _, .number _ | .object _, .string _
  | .object _, .array _ => isFalse (by simp)

def decEqElements : (left right : List Json) → Decidable (left = right)
  | [], [] => isTrue rfl
  | [], _ :: _ => isFalse (by simp)
  | _ :: _, [] => isFalse (by simp)
  | x :: xs, y :: ys =>
    @decidable_of_iff _ (x = y ∧ xs = ys) (by simp)
      (@instDecidableAnd _ _ (decEq x y) (decEqElements xs ys))

def decEqMembers : (left right : List (Str × Json)) → Decidable (left = right)
  | [], [] => isTrue rfl
  | [], _ :: _ => isFalse (by simp)
  | _ :: _, [] => isFalse (by simp)
  | (k, x) :: xs, (l, y) :: ys =>
    @decidable_of_iff _ (k = l ∧ x = y ∧ xs = ys) (by simp [and_assoc])
      (@instDecidableAnd _ _ inferInstance
        (@instDecidableAnd _ _ (decEq x y) (decEqMembers xs ys)))

end

instance : DecidableEq Json := decEq

/-- The kinds a value's `type()` distinguishes. -/
inductive Kind where
  | null | bool | number | string | array | object
  deriving DecidableEq

def kind : Json → Kind
  | .null => .null
  | .bool _ => .bool
  | .number _ => .number
  | .string _ => .string
  | .array _ => .array
  | .object _ => .object

/-- `find`: the member of an object, and nothing for any other value. -/
def find (json : Json) (key : Str) : Option Json :=
  match json with
  | .object members => Keyed.find key members
  | _ => none

/-- `get<String>`: raises on a value that is not a string. -/
def getString : Json → Attempt Str
  | .string value => .ok value
  | _ => .error .raised

/-- The decimal digits an array index is printed with. -/
def indexText (index : Nat) : Str := Nat.toDigits 10 index

/-- The entries `items()` iterates over: members by key, elements by index, a
primitive value as itself under the empty key, and nothing for null. -/
def items : Json → List (Str × Json)
  | .null => []
  | .object members => members
  | .array elements => elements.zipIdx.map fun entry => (indexText entry.2, entry.1)
  | primitive => [([], primitive)]

/-- The values a range-based loop iterates over. -/
def values (json : Json) : List Json := json.items.map Prod.snd

/-- `begin() == end()`. -/
def isEmpty (json : Json) : Bool := json.items.isEmpty

end Json

end FlexConfig
