import FlexConfig.Json.Pointer
import FlexConfig.Tree.XPath

/-! # The schema entry of a node

The two walks that find, for a path in a configuration, the schema object that
describes the node there: one returns the object, the other a schema node with the
attributes the manager works with. Both look a token up first among the members of
the current schema object, then among the patterns, then below `properties`.
-/

namespace FlexConfig

open Procedure

/-- What surrounds the manager: the schema it has loaded, the JSON-schema
validator, the regular expressions of the standard library, with no answer for a
pattern that is none, the evaluation of a constraint for the node at a location of
a tree, and whether the backend answers the n-th message. -/
structure Env where
  jschema : Json
  validate : (jconfig jschema : Json) → Bool
  regexMatch : (pattern text : Str) → Option Bool
  checkConstraint : (root : Node) → Location → (constraint : Str) → Attempt Bool
  answers : Nat → Bool

namespace Schema

namespace Keyword

def TYPE : Str := "type".toList
def PROPERTIES : Str := "properties".toList
def PATTERN_PROPERTIES : Str := "patternProperties".toList

end Keyword

namespace CustomKeyword

def ACTION_PARAM : Str := "action-parameters".toList
def ACTION_PARAM_ON_UPDATE : Str := "on-update".toList
def ACTION_PARAM_ON_DELETE : Str := "on-delete".toList

end CustomKeyword

namespace TypeName

def NIL : Str := "null".toList
def OBJECT : Str := "object".toList
def ARRAY : Str := "array".toList

end TypeName

end Schema

namespace Config.PropertyName

def ACTION : Str := "action".toList
def ACTION_ON_DELETE_PATH : Str := "action-on-delete-path".toList
def ACTION_ON_UPDATE_PATH : Str := "action-on-update-path".toList
def ACTION_SERVER_ADDRESS : Str := "action-server-address".toList
def DEFAULT : Str := "default".toList
def DESCRIPTION : Str := "description".toList
def DELETE_CONSTRAINTS : Str := "delete-constraints".toList
def UPDATE_CONSTRAINTS : Str := "update-constraints".toList
def UPDATE_DEPENDENCIES : Str := "update-dependencies".toList
def REFERENCE : Str := "reference".toList

def SUPPORTED_ATTRIBUTES : List Str :=
  [ACTION, ACTION_ON_DELETE_PATH, ACTION_ON_UPDATE_PATH, ACTION_SERVER_ADDRESS, DEFAULT,
    DESCRIPTION, DELETE_CONSTRAINTS, REFERENCE, UPDATE_CONSTRAINTS, UPDATE_DEPENDENCIES]

end Config.PropertyName

open Schema

/-- Whether a schema object states a type of some name. -/
def Json.hasType (jschema : Json) (name : Str) : Bool :=
  jschema.find Keyword.TYPE = some (.string name)

/-- The type is `object` or `null`: the node is named in its parent's actions. -/
def Json.hasContainerType (jschema : Json) : Bool :=
  jschema.hasType Schema.TypeName.OBJECT || jschema.hasType Schema.TypeName.NIL

/-- A schema node: the tokens on the way to it and its attributes in the order they
were added. -/
structure SchemaNode where
  path : Location
  attributes : List (Str × Str)

/-- The values of an attribute, the one added last first. -/
def SchemaNode.FindAttr (node : SchemaNode) (name : Str) : List Str :=
  ((node.attributes.filter fun entry => entry.1 = name).map Prod.snd).reverse

theorem getString_eq_ok_iff {value : Json} {text : Str} :
    value.getString = .ok text ↔ value = .string text := by
  cases value with
  | string => simp [Json.getString]
  | null | bool | number | array | object => simp [Json.getString]

/-- The attributes one member of a schema object gives. -/
def memberAttributes (key : Str) (value : Json) : Attempt (List (Str × Str)) :=
  if key ∉ Config.PropertyName.SUPPORTED_ATTRIBUTES then .ok []
  else if key = Config.PropertyName.ACTION then
    value.items.mapM fun entry => do
      let text ← entry.2.getString
      return (Config.PropertyName.ACTION ++ '-' :: entry.1, text)
  else
    match value with
    | .array elements =>
      elements.mapM fun element => do
        let text ← element.getString
        return (key, text)
    | _ => do
      let text ← value.getString
      return [(key, text)]

/-- The attributes of a schema object. -/
def loadSchemaAttributes (schema : Json) : Attempt (List (Str × Str)) := do
  let lists ← schema.items.mapM fun entry => memberAttributes entry.1 entry.2
  return lists.flatten

namespace Env

variable (env : Env)

/-- `std::regex_match`: raises where the pattern is no regular expression. -/
def regex_match (pattern text : Str) : Attempt Bool :=
  (env.regexMatch pattern text).elim (.error .raised) .ok

/-- The first pattern that matches a token. -/
def matchingPattern (token : Str) : List (Str × Json) → Attempt (Option Str)
  | [] => .ok none
  | (pattern, _) :: rest => do
    if ← env.regex_match pattern token then return some pattern
    matchingPattern token rest

/-- The schema object below the current one for a token, with the pointer composed
so far; nothing when the walk ends without a schema. -/
def schemaStep (schema : Json) (composed token : Str) : Attempt (Option (Json × Str)) :=
  let property := composed ++ '/' :: Keyword.PROPERTIES ++ '/' :: token
  match schema.find token, schema.find Keyword.PATTERN_PROPERTIES with
  | some _, _ => do
    let next ← env.jschema.atText property
    return some (next, property)
  | none, none => do
    let next ← env.jschema.atText property
    return if next.isEmpty then none else some (next, property)
  | none, some patterns => do
    match ← env.matchingPattern token patterns.items with
    | none => return none
    | some pattern =>
      let matched := composed ++ '/' :: Keyword.PATTERN_PROPERTIES ++ '/' :: pattern
      let next ← env.jschema.atText matched
      return some (next, matched)

/-- The walk of `GetJsonSchemaByXPath`. A walk that ends without a schema returns
null. -/
def jsonSchemaOf : List Str → (schema : Json) → (composed : Str) → Attempt Json
  | [], schema, _ => .ok schema
  | token :: rest, schema, composed => do
    match ← env.schemaStep schema composed token with
    | none => return .null
    | some (next, pointer) => jsonSchemaOf rest next pointer

/-- The walk of `getSchemaByXPath`, which loads the attributes of every schema object
on the way. -/
def schemaNodeOf :
    List Str → (schema : Json) → (composed : Str) → SchemaNode → Attempt (Option SchemaNode)
  | [], _, _, node => .ok (some node)
  | token :: rest, schema, composed, node => do
    match ← env.schemaStep schema composed token with
    | none => return none
    | some (next, pointer) =>
      let attributes ← loadSchemaAttributes next
      schemaNodeOf rest next pointer ⟨node.path ++ [token], attributes⟩

/-- `JsonSchema::instance().get()`: raises while no schema is loaded. -/
def loadedSchema : Attempt Json :=
  if env.jschema = .null then .error .raised else .ok env.jschema

def GetJsonSchemaByXPath (xpath : Str) : Attempt Json := do
  let jschema ← env.loadedSchema
  match jschema.find Keyword.PROPERTIES with
  | none => return .null
  | some properties => env.jsonSchemaOf (XPath.parse xpath) properties []

/-- `Config::Manager::getSchemaByXPath`. -/
def getSchemaByXPath (xpath : Str) : Attempt (Option SchemaNode) := do
  let jschema ← env.loadedSchema
  match jschema.find Keyword.PROPERTIES with
  | none => return none
  | some properties => env.schemaNodeOf (XPath.parse xpath) properties [] ⟨[], []⟩

/-- The schema node of a path where a caller dereferences the answer unchecked. -/
def schemaNodeAt (xpath : Str) : Attempt SchemaNode := do
  match ← env.getSchemaByXPath xpath with
  | some node => return node
  | none => .error .crashed

end Env

/-- The schema node found for tokens has these tokens as its path. -/
theorem schemaNodeOf_path {env : Env} {tokens : List Str} {schema : Json} {composed : Str}
    {start found : SchemaNode}
    (walked : env.schemaNodeOf tokens schema composed start = .ok (some found)) :
    found.path = start.path ++ tokens := by
  induction tokens generalizing schema composed start with
  | nil =>
      cases walked
      exact (List.append_nil _).symm
  | cons token rest ih =>
      obtain ⟨step, _, walked⟩ := except_bind_eq_ok.mp walked
      cases step with
      | none => cases walked
      | some next =>
          obtain ⟨attributes, _, walked⟩ := except_bind_eq_ok.mp walked
          rw [ih walked]
          exact List.append_assoc start.path [token] rest

/-- The schema node found for a path has the path's tokens as its path. -/
theorem getSchemaByXPath_path {env : Env} {xpath : Str} {found : SchemaNode}
    (looked : env.getSchemaByXPath xpath = .ok (some found)) :
    found.path = XPath.parse xpath := by
  obtain ⟨jschema, _, looked⟩ := except_bind_eq_ok.mp looked
  split at looked
  · cases looked
  · exact schemaNodeOf_path looked

end FlexConfig

namespace FlexConfig.Sample

/-! ## Small deployments

Schemas whose patterns are plain names, for the concrete runs that show a statement to be
met or missed. -/

def text (value : String) : Json := .string value.toList

def object (members : List (String × Json)) : Json :=
  .object (members.map fun entry => (entry.1.toList, entry.2))

/-- A JSON-schema object with properties. -/
def container (members : List (String × Json)) : Json :=
  object [("properties", object members), ("type", text "object")]

/-- A string with actions on update and on delete. -/
def posted : Json :=
  object [("action", object [("on-delete-path", text "/delete"), ("on-update-path", text "/update"),
    ("server-address", text "backend")]), ("type", text "string")]

/-- One operation of a patch. -/
def operation (op path : String) (value : Option Json) : Json :=
  object ([("op", text op), ("path", text path)] ++ value.toList.map fun json => ("value", json))

/-- A deployment in which every document is valid, every pattern is a plain name and every
constraint holds. -/
def deployment (jschema : Json) (answers : Nat → Bool) : Env where
  jschema := jschema
  validate := fun _ _ => true
  regexMatch := fun pattern text => some (pattern == text)
  checkConstraint := fun _ _ _ => .ok true
  answers := answers

end FlexConfig.Sample
