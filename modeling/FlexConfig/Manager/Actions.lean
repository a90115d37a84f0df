import FlexConfig.Json.Patch
import FlexConfig.Schema.Lookup

/-! # Action messages

The encoding of the messages posted to the backend: for a node that is loaded at
startup, updated or deleted, and for a node whose deletion or update is taken back.
The encoders differ in where they read the node's value, in whose schema decides
that a node is named in its parent's message, and in how they set the parameters.
-/

namespace FlexConfig

open Procedure Schema

/-- The JSON object of a message: the members that are set. -/
structure Action where
  operation : Str
  path : Str
  value : Option Json
  parameters : Option Json
  deriving DecidableEq

/-- A message with where it is sent. -/
structure Post where
  server : Str
  resource : Str
  action : Action
  deriving DecidableEq

/-- The messages sent so far, each with whether it was answered. -/
abbrev Log := List (Post × Bool)

/-- Sending messages. -/
abbrev Posting := EStateM Halt Log

variable (env : Env)

/-- `Client::post`: whether the message was answered. -/
def post (message : Post) : Posting Bool := fun log =>
  .ok (env.answers log.length) (log ++ [(message, env.answers log.length)])

/-- A sequence that posts goes on with the answer. -/
theorem post_bind {α : Type} (message : Post) (next : Bool → Posting α) (log : Log) :
    (post env message >>= next) log =
      next (env.answers log.length) (log ++ [(message, env.answers log.length)]) := rfl

/-- The parameters a schema object names for an action, with the values a node's JSON
has for them. -/
def fFindAndAppendParamAction (node_jschema node_jconfig : Json) (action_jnode_name : Str) :
    Json :=
  match (node_jschema.find CustomKeyword.ACTION_PARAM).bind (·.find action_jnode_name) with
  | none => .object []
  | some params =>
    .object (params.values.foldl (fun parameters param =>
      match param with
      | .string name =>
        match node_jconfig.find name with
        | some value => Keyed.insert name value parameters
        | none => parameters
      | _ => parameters) [])

/-- `Config::Manager::getConfigNode`: the node's value in the configuration file, which
raises where the file holds no JSON. -/
def getConfigNode (config_file : Option Json) (xpath : Str) : Attempt Json :=
  match config_file with
  | none => .error .raised
  | some jconfig => jconfig.atText xpath

/-- The value member that a message made from the difference to null has: none for null. -/
def diffValue (jnode : Json) : Option Json := if jnode = .null then none else some jnode

/-- The server and the resource of a node's action under a property, where both are
stated. -/
def SchemaNode.actionTarget (schema_node : SchemaNode) (property : Str) : Option (Str × Str) :=
  match schema_node.FindAttr property,
    schema_node.FindAttr Config.PropertyName.ACTION_SERVER_ADDRESS with
  | action :: _, server :: _ => some (server, action)
  | _, _ => none

/-- A message that names a node in its parent. -/
def namedInParent (operation : Str) (pointer : List Str) (parameters : Option Json) :
    Attempt Action := do
  let name ← Json.Pointer.back pointer
  return {
    operation := operation
    path := Json.Pointer.print pointer.dropLast
    value := some (.string name)
    parameters := parameters }

/-- The message that deletes a node. The schema of the node's parent decides how the
node is named and which parameters go along. -/
def deleteAction (config_file : Option Json) (xpath : Str) : Attempt (Option Post) := do
  let schema_node ← env.schemaNodeAt xpath
  match schema_node.actionTarget Config.PropertyName.ACTION_ON_DELETE_PATH with
  | none => return none
  | some (server, resource) =>
    let jnode ← getConfigNode config_file xpath
    let pointer ← Json.Pointer.parse xpath
    let jschema ← env.GetJsonSchemaByXPath (Json.Pointer.print pointer.dropLast)
    let action ←
      if jschema.hasContainerType then
        namedInParent JsonDiffOperation.REMOVE pointer
          (some (fFindAndAppendParamAction jschema jnode CustomKeyword.ACTION_PARAM_ON_DELETE))
      else
        pure {
          operation := JsonDiffOperation.REMOVE
          path := xpath
          value := diffValue jnode
          parameters := none }
    return some ⟨server, resource, action⟩

/-- The message that adds or replaces a node. The schema of the node itself decides how
the node is named; a node named in its parent is always added. -/
def updateAction (jconfig json_config : Json) (xpath : Str) : Attempt (Option Post) := do
  let schema_node ← env.schemaNodeAt xpath
  match schema_node.actionTarget Config.PropertyName.ACTION_ON_UPDATE_PATH with
  | none => return none
  | some (server, resource) =>
    let pointer ← Json.Pointer.parse xpath
    let jnode ← json_config.pointed pointer
    let contained ← jconfig.containsPointer pointer
    let jschema ← env.GetJsonSchemaByXPath (Json.Pointer.print pointer)
    let action ←
      if jschema.hasContainerType then
        namedInParent JsonDiffOperation.ADD pointer
          (some (fFindAndAppendParamAction jschema jnode CustomKeyword.ACTION_PARAM_ON_UPDATE))
      else
        pure {
          operation := if contained then JsonDiffOperation.REPLACE else JsonDiffOperation.ADD
          path := xpath
          value := diffValue jnode
          parameters := none }
    return some ⟨server, resource, action⟩

/-- The message that adds a node at startup. -/
def startupAction (config_file : Option Json) (xpath : Str) : Attempt (Option Post) := do
  let schema_node ← env.schemaNodeAt xpath
  match schema_node.actionTarget Config.PropertyName.ACTION_ON_UPDATE_PATH with
  | none => return none
  | some (server, resource) =>
    let jnode ← getConfigNode config_file xpath
    let jschema ← env.GetJsonSchemaByXPath xpath
    let parameters :=
      if (jschema.find Keyword.TYPE).isSome then
        some (fFindAndAppendParamAction jschema jnode CustomKeyword.ACTION_PARAM_ON_UPDATE)
      else none
    let action ←
      if jschema.hasContainerType then do
        let pointer ← Json.Pointer.parse xpath
        namedInParent JsonDiffOperation.ADD pointer parameters
      else
        pure {
          operation := JsonDiffOperation.ADD
          path := xpath
          value := diffValue jnode
          parameters := parameters }
    return some ⟨server, resource, action⟩

/-- The message that takes a deletion back, from the running configuration. For a
container that is named in its parent the parameters are written through an array
index into an object, which raises. -/
def restoreAction (running_config : Option Node) (running_jconfig : Json) (xpath : Str) :
    Attempt (Option Post) := do
  if running_jconfig = .null then .error .raised
  let pointer ← Json.Pointer.parse xpath
  let jnode ← running_jconfig.pointed pointer
  let schema_node ← env.schemaNodeAt xpath
  match schema_node.actionTarget Config.PropertyName.ACTION_ON_UPDATE_PATH,
    running_config.bind fun root => XPath.select root xpath with
  | some (server, resource), some node =>
    let value ←
      if node.node.isLeaf then pure jnode
      else do
        let jschema ← env.GetJsonSchemaByXPath (Json.Pointer.print pointer)
        if jschema.hasContainerType then .error .raised else pure .null
    return some ⟨server, resource, {
      operation := JsonDiffOperation.ADD
      path := xpath
      value := some value
      parameters := none }⟩
  | _, _ => return none

/-- The message that takes an update back. Below a schema with a type the member `object`
of the schema is read, which raises where there is none, and a node that is named in
its parent raises as for `restoreAction`. -/
def revokeAction (node_config : Node) (xpath : Str) : Attempt (Option Post) := do
  let schema_node ← env.schemaNodeAt xpath
  match schema_node.actionTarget Config.PropertyName.ACTION_ON_DELETE_PATH,
    XPath.select node_config xpath with
  | some (server, resource), some _ =>
    let pointer ← Json.Pointer.parse xpath
    let jschema ← env.GetJsonSchemaByXPath (Json.Pointer.print pointer.dropLast)
    if (jschema.find Keyword.TYPE).isSome then
      match jschema.find Schema.TypeName.OBJECT with
      | none => .error .raised
      | some member =>
        if member = .string Schema.TypeName.NIL || jschema.hasType Schema.TypeName.NIL then
          .error .raised
        else pure ()
    else pure ()
    return some ⟨server, resource, {
      operation := JsonDiffOperation.REMOVE
      path := xpath
      value := some .null
      parameters := none }⟩
  | _, _ => return none

end FlexConfig
