import FlexConfig.Schema.Lookup

/-! # Building a configuration tree from JSON

The loader walks a schema and a JSON document together and adds the nodes it finds
to a composite. It halts only by an exception: a leaf whose JSON value is not a
string, or a pattern that is not a regular expression. The nodes added before the
exception stay in the tree.

The schema objects are walked member by member; `properties` and
`patternProperties` of a schema are taken to be objects, as JSON Schema requires.
-/

namespace FlexConfig

open Procedure Schema

/-- Adding nodes to a composite. -/
abbrev Loading := EStateM Halt Node

/-- Run on the child of a name, or on the composite itself when no child is named. -/
def within (cursor : Option Str) (body : Loading PUnit) : Loading PUnit :=
  match cursor with
  | none => body
  | some name =>
    focus (fun node => (node.findNode name).getD .empty) (fun child node => node.add name child)
      body

/-- A schema object below which the loader looks for further nodes. -/
def hasSubnodes (jschema : Json) : Bool :=
  (jschema.find Keyword.PROPERTIES).isSome || (jschema.find Keyword.PATTERN_PROPERTIES).isSome

/-- A schema object whose node is a leaf. -/
def isLeafSchema (jschema : Json) : Bool :=
  !hasSubnodes jschema ||
    ((jschema.find Keyword.TYPE).isSome && !jschema.hasType Schema.TypeName.OBJECT)

/-- Add one leaf for every item of an array, each named like its value. -/
def addItems (items : List Json) : Loading PUnit :=
  forEach (fun item => do
    let text ← attempt item.getString
    modify fun node => node.add text (.leaf text)) items

variable (env : Env)

mutual

/-- Add the nodes a schema object finds in a JSON value. -/
def fParseAndLoadConfig (jconfig : Json) : (jschema : Json) → Loading PUnit
  | .object members => do
    let cursor ← loadMembers jconfig none members
    loadKeywords jconfig cursor members
  | _ => pure PUnit.unit
termination_by structural jschema => jschema

/-- The loop that takes every member of the schema object for a possible child. Its
result names the composite added last, to which the second loop adds. -/
def loadMembers (jconfig : Json) (cursor : Option Str) :
    (members : List (Str × Json)) → Loading (Option Str)
  | [] => pure cursor
  | (key, jschema) :: rest =>
    match jconfig.find key with
    | none => loadMembers jconfig cursor rest
    | some value =>
      if jschema.hasType Schema.TypeName.ARRAY then do
        modify fun node => node.add key .empty
        within (some key) (addItems value.values)
        within cursor (fParseAndLoadConfig value jschema)
        loadMembers jconfig cursor rest
      else if isLeafSchema jschema then do
        let text ← attempt value.getString
        modify fun node => node.add key (.leaf text)
        loadMembers jconfig cursor rest
      else do
        modify fun node => node.add key .empty
        within (some key) (fParseAndLoadConfig value jschema)
        loadMembers jconfig (some key) rest
termination_by structural members => members

/-- The loop that descends into `patternProperties` and `properties`. -/
def loadKeywords (jconfig : Json) (cursor : Option Str) :
    (members : List (Str × Json)) → Loading PUnit
  | [] => pure PUnit.unit
  | (key, jschema) :: rest => do
    if key = Keyword.PATTERN_PROPERTIES then
      within cursor (fLoadPatternProperties jconfig jschema)
    else if key = Keyword.PROPERTIES then within cursor (fParseAndLoadConfig jconfig jschema)
    else pure PUnit.unit
    loadKeywords jconfig cursor rest
termination_by structural members => members

/-- Add the nodes a table of patterns finds in a JSON value. -/
def fLoadPatternProperties (jconfig : Json) : (jschema : Json) → Loading PUnit
  | .object patterns => forEach (fun entry => loadMatching entry.1 entry.2 patterns) jconfig.items
  | _ => pure PUnit.unit
termination_by structural jschema => jschema

/-- Add a composite for every pattern that matches a key of the document. -/
def loadMatching (key : Str) (value : Json) : (patterns : List (Str × Json)) → Loading PUnit
  | [] => pure PUnit.unit
  | (pattern, jschema) :: rest => do
    let matched ← attempt (env.regex_match pattern key)
    if matched then do
      modify fun node => node.add key .empty
      if hasSubnodes jschema then within (some key) (fParseAndLoadConfig value jschema)
      else pure PUnit.unit
    else pure PUnit.unit
    loadMatching key value rest
termination_by structural patterns => patterns

end

/-- Build the tree of a whole document, as loading and reloading do: from the
`properties` of the root schema, or from its `patternProperties`. -/
def buildTree (jconfig : Json) : Attempt Node :=
  match env.jschema.find Keyword.PROPERTIES, env.jschema.find Keyword.PATTERN_PROPERTIES with
  | some properties, _ =>
    match fParseAndLoadConfig env jconfig properties .empty with
    | .ok _ root => .ok root
    | .error reason _ => .error reason
  | none, some patterns =>
    match fLoadPatternProperties env jconfig patterns .empty with
    | .ok _ root => .ok root
    | .error reason _ => .error reason
  | none, none => .error .rejected

end FlexConfig
