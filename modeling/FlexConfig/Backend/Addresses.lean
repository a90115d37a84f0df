import FlexConfig.Backend.Messages

/-! # The item a message names

Five encoders write the messages of a node: at startup, for its update and its deletion,
and for taking either back. The first two address a node by its own schema, the deletion
by the schema of the parent, and the other two by the node's path whatever its schema is.
They agree exactly where these come to the same (`encoders_agree_iff`).
-/

namespace FlexConfig

open Procedure Schema

/-- What the messages of a node are made from. -/
structure Encoding where
  config_file : Option Json
  jconfig : Json
  json_config : Json
  running_config : Option Node
  running_jconfig : Json
  node_config : Node

/-- The messages of a node: at startup, on update, on deletion, and those that take a
deletion and an update back. -/
def Encoding.messages (env : Env) (encoding : Encoding) (xpath : Str) :
    List (Attempt (Option Post)) :=
  [startupAction env encoding.config_file xpath,
    updateAction env encoding.jconfig encoding.json_config xpath,
    deleteAction env encoding.config_file xpath,
    restoreAction env encoding.running_config encoding.running_jconfig xpath,
    revokeAction env encoding.node_config xpath]

/-- A message names the item at an address: by its path, or as a member of the item under
the parent's path. -/
def Action.Names (action : Action) : Address → Prop
  | .own xpath => action.path = xpath
  | .member parent name => action.path = parent ∧ action.value = some (.string name)

/-- All messages that are made for a node name the item its update is posted to. -/
def EncodersAgree (env : Env) (encoding : Encoding) (xpath : Str) : Prop :=
  ∀ address ∈ addressOf env xpath, ∀ message ∈ encoding.messages env xpath, ∀ post,
    message = .ok (some post) → post.action.Names address

section Address

variable {env : Env} {xpath : Str}

/-- The address of a node, given whether it is named in its parent. -/
def addressBy (container : Bool) (xpath : Str) (pointer : List Str) : Option Address :=
  if container then pointer.getLast?.map (Address.member (Json.Pointer.print pointer.dropLast))
  else some (.own xpath)

theorem print_dropLast_ne {pointer : List Str} (parsed : Json.Pointer.parse xpath = .ok pointer)
    (below : pointer ≠ []) : Json.Pointer.print pointer.dropLast ≠ xpath := by
  intro same
  have whole := Json.Pointer.print_parse parsed
  rw [← List.dropLast_append_getLast below, Json.Pointer.print, List.flatMap_append] at whole
  have lengths := congrArg List.length (whole.trans same.symm)
  rw [Json.Pointer.print, List.length_append, List.flatMap_singleton, List.length_cons] at lengths
  omega

/-- A message names one kind of address only. -/
theorem kind_of_names {pointer : List Str} (parsed : Json.Pointer.parse xpath = .ok pointer)
    {action : Action} {first second : Bool} {address other : Address}
    (addressed : address ∈ addressBy first xpath pointer)
    (addressedOther : other ∈ addressBy second xpath pointer) (names : action.Names address)
    (namesOther : action.Names other) : first = second := by
  have mixed : ∀ {own member : Address}, own ∈ addressBy false xpath pointer →
      member ∈ addressBy true xpath pointer → action.Names own → action.Names member → False := by
    intro own member isOwn isMember namesOwn namesMember
    cases isOwn
    obtain ⟨name, last, rfl⟩ := Option.map_eq_some_iff.mp isMember
    have below : pointer ≠ [] := by
      intro empty
      rw [empty] at last
      cases last
    exact print_dropLast_ne parsed below (namesMember.1.symm.trans namesOwn)
  cases first <;> cases second
  · rfl
  · exact (mixed addressed addressedOther names namesOther).elim
  · exact (mixed addressedOther addressed namesOther names).elim
  · rfl

/-- A path has an address where its update is posted and its schema is found. -/
theorem addressOf_cases {address : Address} (addressed : address ∈ addressOf env xpath) :
    ∃ schema_node own pointer, env.getSchemaByXPath xpath = .ok (some schema_node) ∧
      (schema_node.actionTarget Config.PropertyName.ACTION_ON_UPDATE_PATH).isSome ∧
        env.GetJsonSchemaByXPath xpath = .ok own ∧ Json.Pointer.parse xpath = .ok pointer ∧
          address ∈ addressBy own.hasContainerType xpath pointer := by
  unfold addressOf at addressed
  split at addressed
  · next schema_node found =>
      split at addressed
      · next target own pointer posted schema parsed =>
          exact ⟨schema_node, own, pointer, found, by rw [posted]; rfl, schema, parsed, addressed⟩
      · cases addressed
  · cases addressed

/-- The root has no attributes, and so no actions. -/
theorem not_isSome_target_of_root {schema_node : SchemaNode} {property : Str}
    (found : env.getSchemaByXPath [] = .ok (some schema_node)) :
    ¬ (schema_node.actionTarget property).isSome := by
  obtain ⟨jschema, _, found⟩ := except_bind_eq_ok.mp found
  split at found
  · cases found
  · cases found
    exact Bool.false_ne_true

/-- A message that adds or replaces an item names its address. -/
theorem names_of_change {action : Action} {address : Address} {jconfig : Json} {item : Str × Json}
    (here : itemAt jconfig address = some item)
    (changes : action.change = .add item.1 item.2 ∨ action.change = .replace item.1 item.2) :
    action.Names address := by
  have stated : action.path = item.1 ∧ action.value.getD .null = item.2 := by
    unfold Action.change at changes
    dsimp only at changes
    split at changes
    · rcases changes with add | impossible
      · injection add with path value
        exact ⟨path, value⟩
      · cases impossible
    · split at changes
      · rcases changes with impossible | replace
        · cases impossible
        · injection replace with path value
          exact ⟨path, value⟩
      · split at changes <;> rcases changes with impossible | impossible <;> cases impossible
  cases address with
  | own path =>
      obtain ⟨value, _, rfl⟩ := Option.map_eq_some_iff.mp here
      exact stated.1
  | member parent name =>
      cases here
      refine ⟨stated.1, ?_⟩
      cases value : action.value with
      | none =>
          rw [value] at stated
          cases stated.2
      | some json =>
          rw [value] at stated
          exact congrArg some stated.2

end Address

section Encoders

variable {env : Env} {xpath : Str} {post : Post}

theorem startup_names {config_file : Option Json}
    (encoded : startupAction env config_file xpath = .ok (some post)) :
    ∀ address ∈ addressOf env xpath, post.action.Names address := by
  intro address addressed
  cases config_file with
  | none =>
      obtain ⟨schema_node, _, encoded⟩ := except_bind_eq_ok.mp encoded
      split at encoded
      · cases encoded
      · obtain ⟨_, impossible, _⟩ := except_bind_eq_ok.mp encoded
        cases impossible
  | some jconfig =>
      have spec := startupAction_spec encoded
      cases here : itemOf env jconfig xpath with
      | none =>
          rw [here] at spec
          cases spec
      | some item =>
          rw [here, Option.map_some, Option.map_some, Option.some.injEq] at spec
          obtain ⟨other, addressed', found⟩ := Option.bind_eq_some_iff.mp here
          cases (Option.mem_def.mp addressed).symm.trans addressed'
          exact names_of_change found (.inl spec)

theorem update_names {jconfig json_config : Json}
    (encoded : updateAction env jconfig json_config xpath = .ok (some post)) :
    ∀ address ∈ addressOf env xpath, post.action.Names address := by
  intro address addressed
  rcases updateAction_spec encoded with ⟨impossible, _⟩ | ⟨other, item, same, here, changes⟩
  · cases impossible
  · cases same
    obtain ⟨found, addressed', itemFound⟩ := Option.bind_eq_some_iff.mp here
    cases (Option.mem_def.mp addressed).symm.trans addressed'
    exact names_of_change itemFound (changes.imp And.left And.left)

/-- A node's action under a property is stated with a server. -/
def HasTarget (env : Env) (xpath property : Str) : Prop :=
  ∃ schema_node, env.getSchemaByXPath xpath = .ok (some schema_node) ∧
    (schema_node.actionTarget property).isSome

instance (xpath property : Str) : Decidable (HasTarget env xpath property) :=
  match looked : env.getSchemaByXPath xpath with
  | .ok (some schema_node) => decidable_of_iff ((schema_node.actionTarget property).isSome = true)
      ⟨fun target => ⟨schema_node, looked, target⟩, fun ⟨_, other, target⟩ => by
        cases looked.symm.trans other
        exact target⟩
  | .ok none => isFalse fun ⟨_, other, _⟩ => by cases looked.symm.trans other
  | .error _ => isFalse fun ⟨_, other, _⟩ => by cases looked.symm.trans other

/-- The deletion of a node below the root can be encoded, with the schema of its parent. -/
def DeletionEncoded (env : Env) (config_file : Option Json) (xpath : Str) (parent : Json) : Prop :=
  HasTarget env xpath Config.PropertyName.ACTION_ON_DELETE_PATH ∧
    ∃ pointer jnode, pointer ≠ [] ∧ Json.Pointer.parse xpath = .ok pointer ∧
      getConfigNode config_file xpath = .ok jnode ∧
        env.GetJsonSchemaByXPath (Json.Pointer.print pointer.dropLast) = .ok parent

/-- Taking the deletion of a leaf back can be encoded. -/
def RestorationEncoded (env : Env) (running_config : Option Node) (running_jconfig : Json)
    (xpath : Str) : Prop :=
  HasTarget env xpath Config.PropertyName.ACTION_ON_UPDATE_PATH ∧ running_jconfig ≠ .null ∧
    (∃ pointer jnode, Json.Pointer.parse xpath = .ok pointer ∧
      running_jconfig.pointed pointer = .ok jnode) ∧
    ∃ root ∈ running_config, ∃ node ∈ XPath.select root xpath, node.node.isLeaf = true

/-- Taking the update of a node back can be encoded: the schema of the parent states no
type, or has a member `object` beside it and no type `null`. -/
def RevocationEncoded (env : Env) (node_config : Node) (xpath : Str) : Prop :=
  HasTarget env xpath Config.PropertyName.ACTION_ON_DELETE_PATH ∧
    (XPath.select node_config xpath).isSome ∧
    ∃ pointer parent, Json.Pointer.parse xpath = .ok pointer ∧
      env.GetJsonSchemaByXPath (Json.Pointer.print pointer.dropLast) = .ok parent ∧
        ((parent.find Keyword.TYPE).isSome = true → ∃ member,
          parent.find Schema.TypeName.OBJECT = some member ∧
            member ≠ .string Schema.TypeName.NIL ∧ parent.hasType Schema.TypeName.NIL = false)

theorem schemaNodeAt_eq {schema_node : SchemaNode}
    (found : env.getSchemaByXPath xpath = .ok (some schema_node)) :
    env.schemaNodeAt xpath = .ok schema_node := except_bind_eq_ok.mpr ⟨_, found, rfl⟩

/-- A message that names a node in its parent names it as a member. -/
theorem namedInParent_names {operation : Str} {pointer : List Str} {parameters : Option Json}
    {action : Action} (named : namedInParent operation pointer parameters = .ok action) :
    ∃ address ∈ addressBy true xpath pointer, action.Names address := by
  obtain ⟨name, last, _, path, value⟩ := namedInParent_eq_ok named
  refine ⟨.member (Json.Pointer.print pointer.dropLast) name, ?_, path, value⟩
  exact Option.map_eq_some_iff.mpr ⟨name, last, rfl⟩

theorem exists_namedInParent (operation : Str) {pointer : List Str} (below : pointer ≠ [])
    (parameters : Option Json) : ∃ action, namedInParent operation pointer parameters = .ok action := by
  have back : Json.Pointer.back pointer = .ok (pointer.getLast below) := by
    unfold Json.Pointer.back
    rw [List.getLast?_eq_some_getLast below]
  exact ⟨_, except_bind_eq_ok.mpr ⟨_, back, rfl⟩⟩

/-- A deletion names its node as the schema of the parent says. -/
theorem deletion_names {config_file : Option Json} {pointer : List Str}
    (parsed : Json.Pointer.parse xpath = .ok pointer)
    (encoded : deleteAction env config_file xpath = .ok (some post)) :
    ∃ parent, (pointer ≠ [] → DeletionEncoded env config_file xpath parent) ∧
      ∃ address ∈ addressBy parent.hasContainerType xpath pointer, post.action.Names address := by
  obtain ⟨schema_node, looked, encoded⟩ := except_bind_eq_ok.mp encoded
  have found := getSchemaByXPath_of_schemaNodeAt looked
  cases target : schema_node.actionTarget Config.PropertyName.ACTION_ON_DELETE_PATH with
  | none =>
      simp only [target] at encoded
      cases encoded
  | some server =>
      simp only [target] at encoded
      obtain ⟨jnode, read, encoded⟩ := except_bind_eq_ok.mp encoded
      obtain ⟨pointer', parsed', encoded⟩ := except_bind_eq_ok.mp encoded
      cases parsed.symm.trans parsed'
      obtain ⟨parent, schema, encoded⟩ := except_bind_eq_ok.mp encoded
      refine ⟨parent, fun below => ⟨⟨schema_node, found, by rw [target]; rfl⟩, pointer, jnode, below,
        parsed, read, schema⟩, ?_⟩
      cases named : parent.hasContainerType with
      | true =>
          rw [if_pos named] at encoded
          obtain ⟨action, acts, finished⟩ := except_bind_eq_ok.mp encoded
          cases finished
          exact namedInParent_names acts
      | false =>
          rw [if_neg (Bool.eq_false_iff.mp named)] at encoded
          cases encoded
          exact ⟨.own xpath, rfl, rfl⟩

theorem exists_deletion {config_file : Option Json} {parent : Json}
    (encodes : DeletionEncoded env config_file xpath parent) :
    ∃ post, deleteAction env config_file xpath = .ok (some post) := by
  obtain ⟨⟨schema_node, found, target⟩, pointer, jnode, below, parsed, read, schema⟩ := encodes
  obtain ⟨server, posted⟩ := Option.isSome_iff_exists.mp target
  unfold deleteAction
  rw [schemaNodeAt_eq found]
  dsimp only [bind, Except.bind]
  rw [posted]
  dsimp only
  rw [read]
  dsimp only
  rw [parsed]
  dsimp only
  rw [schema]
  dsimp only
  split
  · obtain ⟨action, acts⟩ := exists_namedInParent JsonDiffOperation.REMOVE below
      (some (fFindAndAppendParamAction parent jnode CustomKeyword.ACTION_PARAM_ON_DELETE))
    rw [acts]
    exact ⟨_, rfl⟩
  · exact ⟨_, rfl⟩

/-- Taking a deletion back names the node by its path; it is a leaf or is not named in
its parent. -/
theorem restoration_names {running_config : Option Node} {running_jconfig own : Json}
    (schema : env.GetJsonSchemaByXPath xpath = .ok own)
    (encoded : restoreAction env running_config running_jconfig xpath = .ok (some post)) :
    post.action.path = xpath ∧ (own.hasContainerType = true →
      RestorationEncoded env running_config running_jconfig xpath) := by
  unfold restoreAction at encoded
  split at encoded
  · cases encoded
  next loaded =>
  obtain ⟨pointer, parsed, encoded⟩ := except_bind_eq_ok.mp encoded
  obtain ⟨jnode, read, encoded⟩ := except_bind_eq_ok.mp encoded
  obtain ⟨schema_node, looked, encoded⟩ := except_bind_eq_ok.mp encoded
  have found := getSchemaByXPath_of_schemaNodeAt looked
  split at encoded
  · next server resource node target selected =>
      split at encoded
      · next leaf =>
          cases encoded
          obtain ⟨root, isRoot, isNode⟩ := Option.bind_eq_some_iff.mp selected
          exact ⟨rfl, fun _ => ⟨⟨schema_node, found, by rw [target]; rfl⟩, loaded,
            ⟨pointer, jnode, parsed, read⟩, root, isRoot, node, isNode, leaf⟩⟩
      · obtain ⟨jschema, schema', encoded⟩ := except_bind_eq_ok.mp encoded
        rw [Json.Pointer.print_parse parsed] at schema'
        cases schema.symm.trans schema'
        split at encoded
        · cases encoded
        · next plain =>
            cases encoded
            exact ⟨rfl, fun named => absurd named plain⟩
  · cases encoded

theorem exists_restoration {running_config : Option Node} {running_jconfig : Json}
    (encodes : RestorationEncoded env running_config running_jconfig xpath) :
    ∃ post, restoreAction env running_config running_jconfig xpath = .ok (some post) := by
  obtain ⟨⟨schema_node, found, target⟩, loaded, ⟨pointer, jnode, parsed, read⟩, root, isRoot, node,
    isNode, leaf⟩ := encodes
  obtain ⟨server, posted⟩ := Option.isSome_iff_exists.mp target
  have selected : (running_config.bind fun root => XPath.select root xpath) = some node :=
    Option.bind_eq_some_iff.mpr ⟨root, isRoot, isNode⟩
  unfold restoreAction
  rw [if_neg loaded, parsed]
  dsimp only [bind, Except.bind, pure, Except.pure]
  rw [read]
  dsimp only
  rw [schemaNodeAt_eq found]
  dsimp only
  rw [posted, selected]
  dsimp only
  rw [if_pos leaf]
  exact ⟨_, rfl⟩

/-- Taking an update back names the node by its path. -/
theorem revocation_names {node_config : Node}
    (encoded : revokeAction env node_config xpath = .ok (some post)) :
    post.action.path = xpath ∧ RevocationEncoded env node_config xpath := by
  obtain ⟨schema_node, looked, encoded⟩ := except_bind_eq_ok.mp encoded
  have found := getSchemaByXPath_of_schemaNodeAt looked
  split at encoded
  · next server resource node target selected =>
      obtain ⟨pointer, parsed, encoded⟩ := except_bind_eq_ok.mp encoded
      obtain ⟨parent, schema, encoded⟩ := except_bind_eq_ok.mp encoded
      dsimp only at encoded
      have answered : post.action.path = xpath ∧ ((parent.find Keyword.TYPE).isSome = true →
          ∃ member, parent.find Schema.TypeName.OBJECT = some member ∧
            member ≠ .string Schema.TypeName.NIL ∧
              parent.hasType Schema.TypeName.NIL = false) := by
        split at encoded
        · split at encoded
          · cases encoded
          · next member isMember =>
              split at encoded
              · cases encoded
              · next fits =>
                  cases encoded
                  rw [Bool.or_eq_true, not_or, decide_eq_true_iff, Bool.not_eq_true] at fits
                  exact ⟨rfl, fun _ => ⟨member, isMember, fits.1, fits.2⟩⟩
        · next untyped =>
            cases encoded
            exact ⟨rfl, fun typed => absurd typed untyped⟩
      exact ⟨answered.1, ⟨schema_node, found, by rw [target]; rfl⟩, by rw [selected]; rfl, pointer,
        parent, parsed, schema, answered.2⟩
  · cases encoded

theorem exists_revocation {node_config : Node}
    (encodes : RevocationEncoded env node_config xpath) :
    ∃ post, revokeAction env node_config xpath = .ok (some post) := by
  obtain ⟨⟨schema_node, found, target⟩, selects, pointer, parent, parsed, schema, fits⟩ := encodes
  obtain ⟨server, posted⟩ := Option.isSome_iff_exists.mp target
  obtain ⟨node, selected⟩ := Option.isSome_iff_exists.mp selects
  unfold revokeAction
  rw [schemaNodeAt_eq found]
  dsimp only [bind, Except.bind]
  rw [posted, selected]
  dsimp only
  rw [parsed]
  dsimp only
  rw [schema]
  dsimp only
  split
  · next typed =>
      obtain ⟨member, isMember, differs, notNull⟩ := fits typed
      rw [isMember]
      dsimp only
      rw [notNull, Bool.or_false, if_neg (by simpa using differs)]
      exact ⟨_, rfl⟩
  · exact ⟨_, rfl⟩

end Encoders

/-- The schema of the parent and the node's own say the same of how it is named where its
deletion can be encoded, and a node that is named in its parent has neither its deletion
nor its update taken back. -/
structure EncodersFit (env : Env) (encoding : Encoding) (xpath : Str) (own : Json) : Prop where
  deletion : ∀ parent, DeletionEncoded env encoding.config_file xpath parent →
    own.hasContainerType = parent.hasContainerType
  restoration : own.hasContainerType = true →
    ¬ RestorationEncoded env encoding.running_config encoding.running_jconfig xpath
  revocation : own.hasContainerType = true →
    ¬ RevocationEncoded env encoding.node_config xpath

/-- The messages of a node name one item exactly where the schemas fit. -/
theorem encoders_agree_iff (env : Env) (encoding : Encoding) (xpath : Str) :
    EncodersAgree env encoding xpath ↔
      ∀ own, (addressOf env xpath).isSome → env.GetJsonSchemaByXPath xpath = .ok own →
        EncodersFit env encoding xpath own := by
  constructor
  · intro agree own has schema
    obtain ⟨address, addressed⟩ := Option.isSome_iff_exists.mp has
    obtain ⟨_, own', pointer, _, _, schema', parsed, byOwn⟩ := addressOf_cases addressed
    cases schema.symm.trans schema'
    have named : ∀ message ∈ encoding.messages env xpath, ∀ post, message = .ok (some post) →
        post.action.Names address := agree address addressed
    have byPath : ∀ message ∈ encoding.messages env xpath, ∀ post, message = .ok (some post) →
        post.action.path = xpath → own.hasContainerType = false := by
      intro message member post made path
      have isOwn : Address.own xpath ∈ addressBy false xpath pointer := rfl
      exact kind_of_names parsed byOwn isOwn (named message member post made) path
    refine ⟨fun parent encodes => ?_, fun container encodes => ?_, fun container encodes => ?_⟩
    · obtain ⟨post, made⟩ := exists_deletion encodes
      obtain ⟨other, again, otherAddress, byParent, names⟩ := deletion_names parsed made
      obtain ⟨_, pointer', _, below, parsed', _, isParent⟩ := encodes
      cases parsed.symm.trans parsed'
      obtain ⟨_, pointer'', _, _, parsed'', _, isParent'⟩ := again below
      cases parsed.symm.trans parsed''
      cases isParent.symm.trans isParent'
      exact kind_of_names parsed byOwn byParent
        (named _ (by simp [Encoding.messages]) post made) names
    · obtain ⟨post, made⟩ := exists_restoration encodes
      have path := (restoration_names schema made).1
      rw [byPath _ (by simp [Encoding.messages]) post made path] at container
      cases container
    · obtain ⟨post, made⟩ := exists_revocation encodes
      have path := (revocation_names made).1
      rw [byPath _ (by simp [Encoding.messages]) post made path] at container
      cases container
  · intro fits address addressed message member post made
    obtain ⟨_, own, pointer, found, target, schema, parsed, byOwn⟩ := addressOf_cases addressed
    have fit := fits own (Option.isSome_iff_exists.mpr ⟨address, addressed⟩) schema
    have byPath : (own.hasContainerType = true → False) → post.action.path = xpath →
        post.action.Names address := by
      intro plain path
      rw [Bool.eq_false_iff.mpr plain] at byOwn
      cases byOwn
      exact path
    simp only [Encoding.messages, List.mem_cons, List.not_mem_nil, or_false] at member
    rcases member with rfl | rfl | rfl | rfl | rfl
    · exact startup_names made address addressed
    · exact update_names made address addressed
    · obtain ⟨parent, encodes, other, byParent, names⟩ := deletion_names parsed made
      have below : pointer ≠ [] := by
        rintro rfl
        rw [Json.Pointer.parse_eq_nil parsed] at found
        exact not_isSome_target_of_root found target
      have same := fit.deletion parent (encodes below)
      rw [same] at byOwn
      cases (Option.mem_def.mp byOwn).symm.trans byParent
      exact names
    · obtain ⟨path, encodes⟩ := restoration_names schema made
      exact byPath (fun container => fit.restoration container (encodes container)) path
    · obtain ⟨path, encodes⟩ := revocation_names made
      exact byPath (fun container => fit.revocation container encodes) path

end FlexConfig

namespace FlexConfig.Sample

/-- A container with a leaf that has actions on update and on delete. -/
def postedInContainer : Env :=
  deployment (container [("a", container [("b", posted)])]) fun _ => true

/-- The leaf is in the configuration file, in both trees and in both documents. -/
def postedEncoding : Encoding where
  config_file := some (object [("a", object [("b", text "x")])])
  jconfig := object [("a", object [("b", text "x")])]
  json_config := object [("a", object [("b", text "x")])]
  running_config :=
    some (.composite [("a".toList, .composite [("b".toList, .leaf "x".toList)])])
  running_jconfig := object [("a", object [("b", text "x")])]
  node_config := .composite [("a".toList, .composite [("b".toList, .leaf "x".toList)])]

/-- The leaf is added under its own path and deleted as a member of its container. -/
theorem leaf_deleted_in_container :
    ¬ EncodersAgree postedInContainer postedEncoding "/a/b".toList := by
  intro agree
  have addressed : addressOf postedInContainer "/a/b".toList = some (.own "/a/b".toList) := by
    decide +kernel
  have deleted : ∃ post ∈ (deleteAction postedInContainer postedEncoding.config_file
      "/a/b".toList).toOption.join, post.action.path = "/a".toList := by
    decide +kernel
  obtain ⟨post, made, path⟩ := deleted
  have encoded := Procedure.mem_toOption.mp (Option.join_eq_some_iff.mp made)
  have named := agree _ addressed (deleteAction _ _ _) (by simp [Encoding.messages]) post encoded
  exact absurd (path.symm.trans named) (by decide)

end FlexConfig.Sample
