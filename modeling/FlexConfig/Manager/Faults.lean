import FlexConfig.Manager.Actions

/-! # What the encoding of a message halts for

Following a pointer, looking up a schema and encoding a message can raise or crash. They
never answer that something is refused, so a call that is refused has not been stopped by
one of them.
-/

namespace FlexConfig

open Procedure Schema

section Access

/-- A text that is no pointer raises. -/
theorem Json.Pointer.parse_avoids (text : Str) : Avoids Halt.rejected (Json.Pointer.parse text) := by
  unfold Json.Pointer.parse
  split
  · exact avoids_ok _ _
  · dsimp only
    split
    · exact avoids_ok _ _
    · exact avoids_error (by decide)
  · exact avoids_error (by decide)

/-- The last token of an empty pointer raises. -/
theorem Json.Pointer.back_avoids (tokens : List Str) :
    Avoids Halt.rejected (Json.Pointer.back tokens) := by
  unfold Json.Pointer.back
  split
  · exact avoids_ok _ _
  · exact avoids_error (by decide)

/-- A token that is no index of an array raises. -/
theorem Json.arrayIndex_avoids (token : Str) : Avoids Halt.rejected (Json.arrayIndex token) := by
  unfold Json.arrayIndex
  dsimp only
  split
  · exact avoids_ok _ _
  · exact avoids_error (by decide)

theorem Json.uncheckedIndex_avoids (token : Str) (length : Nat) :
    Avoids Halt.rejected (Json.uncheckedIndex token length) := by
  unfold Json.uncheckedIndex
  split
  · exact avoids_ok _ _
  · exact Json.arrayIndex_avoids token

/-- A pointer that leads to nothing raises. The induction is on its tokens. -/
theorem Json.pointed_avoids (json : Json) (tokens : List Str) :
    Avoids Halt.rejected (json.pointed tokens) := by
  fun_induction Json.pointed json tokens with
  | case1 => exact avoids_ok _ _
  | case2 _ _ _ ih => exact ih
  | case3 elements token rest ih =>
      exact avoids_bind (Json.uncheckedIndex_avoids token _) ih
  | case4 token rest _ ih =>
      exact avoids_bind (Json.uncheckedIndex_avoids token 0) fun _ => ih
  | case5 _ _ _ ih => exact ih
  | case6 => exact avoids_error (by decide)

/-- Whether a pointer leads to something is answered, but for a token that is no index. -/
theorem Json.containsPointer_avoids (json : Json) (tokens : List Str) :
    Avoids Halt.rejected (json.containsPointer tokens) := by
  fun_induction Json.containsPointer json tokens with
  | case1 | case2 | case4 | case6 => exact avoids_ok _ _
  | case3 _ _ _ _ _ ih => exact ih
  | case5 elements token rest _ ih =>
      apply avoids_bind (Json.arrayIndex_avoids token)
      intro index
      split
      · exact avoids_ok _ _
      · next inner _ => exact ih inner

theorem Json.atText_avoids (json : Json) (text : Str) : Avoids Halt.rejected (json.atText text) :=
  avoids_bind (Json.Pointer.parse_avoids text) fun tokens => json.pointed_avoids tokens

/-- A value that is no string raises where one is read. -/
theorem Json.getString_avoids (json : Json) : Avoids Halt.rejected json.getString := by
  unfold Json.getString
  split
  · exact avoids_ok _ _
  · exact avoids_error (by decide)

end Access

section Lookup

variable (env : Env)

/-- An attribute that is no string, nor made of strings, raises. -/
theorem memberAttributes_avoids (key : Str) (value : Json) :
    Avoids Halt.rejected (memberAttributes key value) := by
  unfold memberAttributes
  split
  · exact avoids_ok _ _
  · split
    · apply avoids_mapM
      intro entry
      exact avoids_bind entry.2.getString_avoids fun _ => avoids_ok _ _
    · split
      · apply avoids_mapM
        intro element
        exact avoids_bind element.getString_avoids fun _ => avoids_ok _ _
      · exact avoids_bind value.getString_avoids fun _ => avoids_ok _ _

theorem loadSchemaAttributes_avoids (schema : Json) :
    Avoids Halt.rejected (loadSchemaAttributes schema) := by
  apply avoids_bind
  · apply avoids_mapM
    intro entry
    exact memberAttributes_avoids entry.1 entry.2
  · exact fun _ => avoids_ok _ _

/-- A pattern that is none raises. -/
theorem Env.regex_match_avoids (pattern text : Str) :
    Avoids Halt.rejected (env.regex_match pattern text) := by
  unfold Env.regex_match
  cases env.regexMatch pattern text with
  | none => exact avoids_error (by decide)
  | some answer => exact avoids_ok _ _

theorem Env.matchingPattern_avoids (token : Str) (patterns : List (Str × Json)) :
    Avoids Halt.rejected (env.matchingPattern token patterns) := by
  induction patterns with
  | nil => exact avoids_ok _ _
  | cons entry rest ih =>
      apply avoids_bind (env.regex_match_avoids entry.1 token)
      intro found
      cases found with
      | true => exact avoids_ok _ _
      | false => exact ih

/-- A step of the walk through the schema raises where it follows a path that leads to nothing, or
meets a pattern that is none. -/
theorem Env.schemaStep_avoids (schema : Json) (composed token : Str) :
    Avoids Halt.rejected (env.schemaStep schema composed token) := by
  unfold Env.schemaStep
  dsimp only
  split
  · exact avoids_bind (env.jschema.atText_avoids _) fun _ => avoids_ok _ _
  · apply avoids_bind (env.jschema.atText_avoids _)
    intro next
    split
    · exact avoids_ok _ _
    · exact avoids_ok _ _
  · apply avoids_bind (env.matchingPattern_avoids token _)
    intro found
    cases found with
    | none => exact avoids_ok _ _
    | some pattern => exact avoids_bind (env.jschema.atText_avoids _) fun _ => avoids_ok _ _

/-- The walk that collects no attributes does what its steps do. -/
theorem Env.jsonSchemaOf_avoids (tokens : List Str) (schema : Json) (composed : Str) :
    Avoids Halt.rejected (env.jsonSchemaOf tokens schema composed) := by
  induction tokens generalizing schema composed with
  | nil => exact avoids_ok _ _
  | cons token rest ih =>
      apply avoids_bind (env.schemaStep_avoids schema composed token)
      intro step
      cases step with
      | none => exact avoids_ok _ _
      | some next => exact ih next.1 next.2

/-- The walk that collects attributes raises at those of a place, too. -/
theorem Env.schemaNodeOf_avoids (tokens : List Str) (schema : Json) (composed : Str)
    (node : SchemaNode) : Avoids Halt.rejected (env.schemaNodeOf tokens schema composed node) := by
  induction tokens generalizing schema composed node with
  | nil => exact avoids_ok _ _
  | cons token rest ih =>
      apply avoids_bind (env.schemaStep_avoids schema composed token)
      intro step
      cases step with
      | none => exact avoids_ok _ _
      | some next =>
          apply avoids_bind (loadSchemaAttributes_avoids next.1)
          intro attributes
          exact ih next.1 next.2 _

theorem Env.loadedSchema_avoids : Avoids Halt.rejected env.loadedSchema := by
  unfold Env.loadedSchema
  split
  · exact avoids_error (by decide)
  · exact avoids_ok _ _

theorem Env.GetJsonSchemaByXPath_avoids (xpath : Str) :
    Avoids Halt.rejected (env.GetJsonSchemaByXPath xpath) := by
  apply avoids_bind env.loadedSchema_avoids
  intro jschema
  split
  · exact avoids_ok _ _
  · exact env.jsonSchemaOf_avoids _ _ _

theorem Env.getSchemaByXPath_avoids (xpath : Str) :
    Avoids Halt.rejected (env.getSchemaByXPath xpath) := by
  apply avoids_bind env.loadedSchema_avoids
  intro jschema
  split
  · exact avoids_ok _ _
  · exact env.schemaNodeOf_avoids _ _ _ _

/-- A node without a schema is dereferenced nonetheless, and crashes. -/
theorem Env.schemaNodeAt_avoids (xpath : Str) : Avoids Halt.rejected (env.schemaNodeAt xpath) := by
  apply avoids_bind (env.getSchemaByXPath_avoids xpath)
  intro found
  cases found with
  | none => exact avoids_error (by decide)
  | some node => exact avoids_ok _ _

end Lookup

section Encode

variable (env : Env)

/-- The value of a node in the configuration file raises where there is no file, or no such node. -/
theorem getConfigNode_avoids (config_file : Option Json) (xpath : Str) :
    Avoids Halt.rejected (getConfigNode config_file xpath) := by
  unfold getConfigNode
  split
  · exact avoids_error (by decide)
  · exact Json.atText_avoids _ xpath

theorem namedInParent_avoids (operation : Str) (pointer : List Str) (parameters : Option Json) :
    Avoids Halt.rejected (namedInParent operation pointer parameters) :=
  avoids_bind (Json.Pointer.back_avoids pointer) fun _ => avoids_ok _ _

/-- A deletion raises where the configuration file has no value for the node. -/
theorem deleteAction_avoids (config_file : Option Json) (xpath : Str) :
    Avoids Halt.rejected (deleteAction env config_file xpath) := by
  apply avoids_bind (env.schemaNodeAt_avoids xpath)
  intro schema_node
  split
  · exact avoids_ok _ _
  apply avoids_bind (getConfigNode_avoids config_file xpath)
  intro jnode
  apply avoids_bind (Json.Pointer.parse_avoids xpath)
  intro pointer
  apply avoids_bind (env.GetJsonSchemaByXPath_avoids _)
  intro jschema
  split
  · exact avoids_bind (namedInParent_avoids _ _ _) fun _ => avoids_ok _ _
  · exact avoids_ok _ _

/-- An update raises where the new document has no value for the node. -/
theorem updateAction_avoids (jconfig json_config : Json) (xpath : Str) :
    Avoids Halt.rejected (updateAction env jconfig json_config xpath) := by
  apply avoids_bind (env.schemaNodeAt_avoids xpath)
  intro schema_node
  split
  · exact avoids_ok _ _
  apply avoids_bind (Json.Pointer.parse_avoids xpath)
  intro pointer
  apply avoids_bind (json_config.pointed_avoids pointer)
  intro jnode
  apply avoids_bind (jconfig.containsPointer_avoids pointer)
  intro contained
  apply avoids_bind (env.GetJsonSchemaByXPath_avoids _)
  intro jschema
  split
  · exact avoids_bind (namedInParent_avoids _ _ _) fun _ => avoids_ok _ _
  · exact avoids_ok _ _

/-- A restoration raises where the document has no value for the node, and for a composite whose
schema has the type of a container. -/
theorem restoreAction_avoids (running_config : Option Node) (running_jconfig : Json)
    (xpath : Str) : Avoids Halt.rejected (restoreAction env running_config running_jconfig xpath) := by
  unfold restoreAction
  split
  · exact avoids_error (by decide)
  apply avoids_bind (Json.Pointer.parse_avoids xpath)
  intro pointer
  apply avoids_bind (running_jconfig.pointed_avoids pointer)
  intro jnode
  apply avoids_bind (env.schemaNodeAt_avoids xpath)
  intro schema_node
  split
  · split
    · exact avoids_ok _ _
    · apply avoids_bind (env.GetJsonSchemaByXPath_avoids _)
      intro jschema
      split
      · exact avoids_error (by decide)
      · exact avoids_ok _ _
  · exact avoids_ok _ _

/-- A revocation raises below a schema with a type that has no member `object`, and below one that
has the type null there or itself. -/
theorem revokeAction_avoids (node_config : Node) (xpath : Str) :
    Avoids Halt.rejected (revokeAction env node_config xpath) := by
  apply avoids_bind (env.schemaNodeAt_avoids xpath)
  intro schema_node
  split
  · apply avoids_bind (Json.Pointer.parse_avoids xpath)
    intro pointer
    apply avoids_bind (env.GetJsonSchemaByXPath_avoids _)
    intro jschema
    split
    · split
      · exact avoids_error (by decide)
      · split
        · exact avoids_error (by decide)
        · exact avoids_ok _ _
    · exact avoids_ok _ _
  · exact avoids_ok _ _

end Encode

end FlexConfig
