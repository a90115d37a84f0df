import FlexConfig.Backend.Deletions

/-! # Nodes whose messages are taken back

A deletion is taken back by a message that adds the node's running value under its path, and an
update by one that clears the path. From a backend that holds the items of a tree, these messages
leave it as it was exactly when each removed node can be restored and each updated one revoked,
which is told by the schema and by what the two trees and documents have.
-/

namespace FlexConfig

open Procedure ItemStore

section Shapes

variable {env : Env} {xpath other : Str}

/-- A node has an action. -/
def Active (env : Env) (xpath : Str) : Prop :=
  HasTarget env xpath Config.PropertyName.ACTION_ON_DELETE_PATH ∨
    HasTarget env xpath Config.PropertyName.ACTION_ON_UPDATE_PATH

/-- No item lies under the path of another node that has an action. -/
def ItemsApart (env : Env) (nodes : List Str) : Prop :=
  ∀ xpath ∈ nodes, Active env xpath → ∀ other ∈ nodes, ∀ address ∈ addressOf env other,
    address.key = xpath → other = xpath

instance (xpath : Str) : Decidable (Active env xpath) := inferInstanceAs (Decidable (_ ∨ _))

instance (nodes : List Str) : Decidable (ItemsApart env nodes) :=
  inferInstanceAs (Decidable (∀ _ ∈ _, _))

theorem ItemsApart.eq_of_item {nodes : List Str} (apart : ItemsApart env nodes) (member : xpath ∈ nodes)
    (active : Active env xpath) (otherMember : other ∈ nodes) {jconfig : Json} {item : Str × Json}
    (here : itemOf env jconfig other = some item) (key : item.1 = xpath) : other = xpath := by
  obtain ⟨address, addressed, found⟩ := Option.bind_eq_some_iff.mp here
  exact apart xpath member active other otherMember address addressed ((itemAt_key found).symm.trans key)

theorem active_of_address {address : Address} (addressed : address ∈ addressOf env xpath) :
    Active env xpath := by
  obtain ⟨schema_node, _, _, found, target, _⟩ := addressOf_cases addressed
  exact Or.inr ⟨schema_node, found, target⟩

theorem print_eq_of_getLast? {pointer : List Str} {name : Str} (last : pointer.getLast? = some name) :
    Json.Pointer.print pointer =
      Json.Pointer.print pointer.dropLast ++ Json.Pointer.print [name] := by
  obtain ⟨earlier, rfl⟩ := List.getLast?_eq_some_iff.mp last
  rw [List.dropLast_concat]
  exact List.flatMap_append

/-- A member of an item is the node of that parent and name. -/
theorem eq_of_member {pointer : List Str} {name : Str}
    (addressed : .member (Json.Pointer.print pointer.dropLast) name ∈ addressOf env xpath)
    (parsed : Json.Pointer.parse other = .ok pointer) (last : pointer.getLast? = some name) :
    xpath = other := by
  obtain ⟨_, own, pointer', _, _, _, parsed', byOwn⟩ := addressOf_cases addressed
  unfold addressBy at byOwn
  split at byOwn
  · obtain ⟨name', last', same⟩ := Option.map_eq_some_iff.mp byOwn
    injection same with parents names
    subst names
    rw [← Json.Pointer.print_parse parsed, ← Json.Pointer.print_parse parsed',
      print_eq_of_getLast? last, print_eq_of_getLast? last', parents]
  · cases byOwn

theorem member_injective {parent name : Str}
    (first : addressOf env xpath = some (.member parent name))
    (second : addressOf env other = some (.member parent name)) : xpath = other := by
  obtain ⟨_, own, pointer, _, _, _, parsed, byOwn⟩ := addressOf_cases second
  unfold addressBy at byOwn
  split at byOwn
  · obtain ⟨name', last, same⟩ := Option.map_eq_some_iff.mp byOwn
    cases same
    exact eq_of_member first parsed last
  · cases byOwn

/-- Nodes that are apart have different items. -/
theorem ItemsApart.eq_of_items {nodes : List Str} (apart : ItemsApart env nodes) (member : xpath ∈ nodes)
    (otherMember : other ∈ nodes) {jconfig json_config : Json} {item : Str × Json}
    (here : itemOf env jconfig xpath = some item)
    (there : itemOf env json_config other = some item) : other = xpath := by
  obtain ⟨address, addressed, found⟩ := Option.bind_eq_some_iff.mp here
  obtain ⟨second, secondAddressed, secondFound⟩ := Option.bind_eq_some_iff.mp there
  cases address with
  | own path =>
      have same := own_of_addressOf addressed
      subst same
      exact apart.eq_of_item member (active_of_address addressed) otherMember there (itemAt_key found)
  | member parent name =>
      cases second with
      | own path =>
          have same := own_of_addressOf secondAddressed
          subst same
          exact (apart.eq_of_item otherMember (active_of_address secondAddressed) member here
            (itemAt_key secondFound)).symm
      | member parent' name' =>
          cases found
          cases secondFound
          exact (member_injective addressed secondAddressed).symm

/-- A deletion erases no item of another node. -/
theorem ItemsApart.eq_of_erases {nodes : List Str} (apart : ItemsApart env nodes) (member : xpath ∈ nodes)
    (otherMember : other ∈ nodes) {config_file : Option Json} {change : Change Str Json}
    (asks : changeAt (deleteAction env config_file) xpath = some change) {jconfig : Json}
    {item : Str × Json} (here : itemOf env jconfig other = some item) (erases : change.Erases item) :
    other = xpath := by
  obtain ⟨target, _, only⟩ := deletion_shape asks
  rcases only item erases with key | ⟨pointer, name, parsed, last, listed, rfl⟩
  · exact apart.eq_of_item member (Or.inl target) otherMember here key
  · obtain ⟨address, addressed, found⟩ := Option.bind_eq_some_iff.mp here
    cases address with
    | own path =>
        -- a parent that is an item of its own does not list its nodes
        have same := own_of_addressOf addressed
        have key : Json.Pointer.print pointer.dropLast = path := itemAt_key found
        subst same
        obtain ⟨_, own, _, _, _, schema, _, byOwn⟩ := addressOf_cases addressed
        obtain ⟨_, parsed', listed⟩ := except_bind_eq_ok.mp listed
        cases parsed.symm.trans parsed'
        obtain ⟨schema', isParent, container⟩ := except_bind_eq_ok.mp listed
        rw [key] at isParent
        cases schema.symm.trans isParent
        have container : own.hasContainerType = true := by injection container
        rw [container] at byOwn
        obtain ⟨_, _, impossible⟩ := Option.map_eq_some_iff.mp byOwn
        cases impossible
    | member parent name' =>
        cases found
        exact eq_of_member addressed parsed last

/-- An update is taken back by clearing the path of its node. -/
theorem revocation_shape {node_config : Node} {change : Change Str Json}
    (asks : changeAt (revokeAction env node_config) xpath = some change) :
    HasTarget env xpath Config.PropertyName.ACTION_ON_DELETE_PATH ∧ change = .clear xpath := by
  obtain ⟨post, encoded, rfl⟩ := changeAt_eq_some asks
  refine ⟨(revocation_names encoded).2.1, ?_⟩
  obtain ⟨schema_node, looked, encoded⟩ := except_bind_eq_ok.mp encoded
  split at encoded
  · obtain ⟨pointer, parsed, encoded⟩ := except_bind_eq_ok.mp encoded
    obtain ⟨parent, schema, encoded⟩ := except_bind_eq_ok.mp encoded
    dsimp only at encoded
    split at encoded
    · split at encoded
      · cases encoded
      · split at encoded <;> cases encoded
        rfl
    · cases encoded
      rfl
  · cases encoded

/-- The message that takes an update back can be encoded where the parent's schema lets it be, and
for a node without an action on delete. -/
theorem exists_revokeAction_iff {node_config : Node} {schema_node : SchemaNode}
    (found : env.getSchemaByXPath xpath = .ok (some schema_node))
    (selected : (XPath.select node_config xpath).isSome) :
    (∃ message, revokeAction env node_config xpath = .ok message) ↔
      (HasTarget env xpath Config.PropertyName.ACTION_ON_DELETE_PATH →
        RevocationEncoded env node_config xpath) := by
  constructor
  · rintro ⟨message, encoded⟩ target
    cases message with
    | some post => exact (revocation_names encoded).2
    | none =>
        obtain ⟨node, isNode⟩ := Option.isSome_iff_exists.mp selected
        obtain ⟨other, found', answered⟩ := target
        cases found.symm.trans found'
        obtain ⟨server, posted⟩ := Option.isSome_iff_exists.mp answered
        obtain ⟨_, looked, encoded⟩ := except_bind_eq_ok.mp encoded
        cases looked.symm.trans (schemaNodeAt_eq found)
        rw [posted, isNode] at encoded
        obtain ⟨_, _, encoded⟩ := except_bind_eq_ok.mp encoded
        obtain ⟨_, _, encoded⟩ := except_bind_eq_ok.mp encoded
        dsimp only at encoded
        split at encoded
        · split at encoded
          · cases encoded
          · split at encoded <;> cases encoded
        · cases encoded
  · intro encodes
    by_cases target : HasTarget env xpath Config.PropertyName.ACTION_ON_DELETE_PATH
    · obtain ⟨post, encoded⟩ := exists_revocation (encodes target)
      exact ⟨some post, encoded⟩
    · refine ⟨none, ?_⟩
      unfold revokeAction
      rw [schemaNodeAt_eq found]
      dsimp only [bind, Except.bind]
      split
      · next server resource _ answered _ =>
          exact absurd ⟨schema_node, found, by rw [answered]; rfl⟩ target
      · rfl

end Shapes

section TakenBack

variable {env : Env} {tree : Node} {jconfig : Json} {xpath : Str}

/-- A removed node can be restored: it has no action on update, or is an item of its own that is a
leaf or null. -/
def Restorable (env : Env) (tree : Node) (jconfig : Json) (xpath : Str) : Prop :=
  HasTarget env xpath Config.PropertyName.ACTION_ON_UPDATE_PATH →
    addressOf env xpath = some (.own xpath) ∧
      ((∃ node ∈ XPath.select tree xpath, node.node.isLeaf = true) ∨
        jconfig.atText xpath = .ok .null)

/-- What the restoration of a node adds. -/
theorem restoreAction_cases {schema_node : SchemaNode} {value : Json} {node : Located}
    (found : env.getSchemaByXPath xpath = .ok (some schema_node)) (document : jconfig ≠ .null)
    (valued : jconfig.atText xpath = .ok value) (selected : XPath.select tree xpath = some node) :
    (¬ HasTarget env xpath Config.PropertyName.ACTION_ON_UPDATE_PATH ∧
        restoreAction env (some tree) jconfig xpath = .ok none) ∨
      HasTarget env xpath Config.PropertyName.ACTION_ON_UPDATE_PATH ∧
        ((node.node.isLeaf = true ∧ ∃ post,
            restoreAction env (some tree) jconfig xpath = .ok (some post) ∧
              post.action.change = .add xpath value) ∨
          (node.node.isLeaf = false ∧
            ((∃ own, env.GetJsonSchemaByXPath xpath = .ok own ∧ own.hasContainerType = false ∧
                ∃ post, restoreAction env (some tree) jconfig xpath = .ok (some post) ∧
                  post.action.change = .add xpath .null) ∨
              (∀ own, env.GetJsonSchemaByXPath xpath = .ok own → own.hasContainerType = true) ∧
                ∃ reason, restoreAction env (some tree) jconfig xpath = .error reason))) := by
  obtain ⟨pointer, parsed, read⟩ := except_bind_eq_ok.mp valued
  unfold restoreAction
  rw [if_neg document, parsed]
  dsimp only [bind, Except.bind, pure, Except.pure]
  rw [read]
  dsimp only
  rw [schemaNodeAt_eq found]
  dsimp only
  rw [Option.bind_some, selected]
  cases answered : schema_node.actionTarget Config.PropertyName.ACTION_ON_UPDATE_PATH with
  | none =>
      refine Or.inl ⟨fun ⟨other, found', target⟩ => ?_, rfl⟩
      cases found.symm.trans found'
      rw [answered] at target
      cases target
  | some server =>
      refine Or.inr ⟨⟨schema_node, found, by rw [answered]; rfl⟩, ?_⟩
      cases leaf : node.node.isLeaf with
      | true =>
          dsimp only
          rw [if_pos leaf]
          exact Or.inl ⟨rfl, _, rfl, rfl⟩
      | false =>
          refine Or.inr ⟨rfl, ?_⟩
          dsimp only
          rw [if_neg (Bool.eq_false_iff.mp leaf), Json.Pointer.print_parse parsed]
          cases schema : env.GetJsonSchemaByXPath xpath with
          | error reason => exact Or.inr ⟨nofun, reason, rfl⟩
          | ok own =>
              dsimp only
              cases container : own.hasContainerType with
              | true =>
                  refine Or.inr ⟨fun other same => ?_, .raised, rfl⟩
                  cases same
                  exact container
              | false => exact Or.inl ⟨own, rfl, container, _, rfl, rfl⟩

theorem itemOf_own {value : Json} (own : addressOf env xpath = some (.own xpath))
    (valued : jconfig.atText xpath = .ok value) : itemOf env jconfig xpath = some (xpath, value) := by
  unfold itemOf
  rw [own]
  change (jconfig.atText xpath).toOption.map _ = _
  rw [valued]
  rfl

/-- The restoration of a node that can be restored adds its item. -/
theorem Restorable.restores {schema_node : SchemaNode} {value : Json} {node : Located}
    (restorable : Restorable env tree jconfig xpath)
    (found : env.getSchemaByXPath xpath = .ok (some schema_node)) (document : jconfig ≠ .null)
    (valued : jconfig.atText xpath = .ok value) (selected : XPath.select tree xpath = some node) :
    (∃ message, restoreAction env (some tree) jconfig xpath = .ok message) ∧
      changeAt (restoreAction env (some tree) jconfig) xpath =
        (itemOf env jconfig xpath).map fun item => .add item.1 item.2 := by
  rcases restoreAction_cases found document valued selected with
    ⟨untargeted, silent⟩ | ⟨target, ⟨leaf, post, encoded, adds⟩ | ⟨inner, adding⟩⟩
  · refine ⟨⟨none, silent⟩, ?_⟩
    have missing : itemOf env jconfig xpath = none := by
      cases addressed : addressOf env xpath with
      | none => exact congrArg (Option.bind · (itemAt jconfig)) addressed
      | some address =>
          obtain ⟨other, _, _, found', target, _⟩ := addressOf_cases addressed
          exact absurd ⟨other, found', target⟩ untargeted
    rw [missing]
    unfold changeAt
    rw [silent]
    rfl
  · have here := itemOf_own (restorable target).1 valued
    refine ⟨⟨_, encoded⟩, ?_⟩
    rw [here]
    unfold changeAt
    rw [encoded]
    exact congrArg some adds
  · obtain ⟨own, null⟩ := restorable target
    have isNull : value = .null := by
      rcases null with ⟨other, isNode, leaf⟩ | null
      · cases (Option.mem_def.mp isNode).symm.trans selected
        rw [inner] at leaf
        cases leaf
      · cases valued.symm.trans null
        rfl
    subst isNull
    have here := itemOf_own own valued
    obtain ⟨_, schema, pointer, _, _, isOwn, _, byOwn⟩ := addressOf_cases own
    rcases adding with ⟨_, _, _, post, encoded, adds⟩ | ⟨listed, _⟩
    · refine ⟨⟨_, encoded⟩, ?_⟩
      rw [here]
      unfold changeAt
      rw [encoded]
      exact congrArg some adds
    · -- a node that is listed in its parent is no item of its own
      rw [listed schema isOwn] at byOwn
      obtain ⟨_, _, impossible⟩ := Option.map_eq_some_iff.mp byOwn
      cases impossible

/-- The nodes that are removed from one tree and those that are updated in another one: their items
are apart, each is found with its schema, and the document has a value for those of the first. -/
structure Standing (env : Env) (tree target : Node) (jconfig : Json) (removed updated : List Str) :
    Prop where
  apart : ItemsApart env (xpathsOf tree ++ xpathsOf target)
  document : jconfig ≠ .null
  valued : ∀ xpath ∈ xpathsOf tree, ∃ value, jconfig.atText xpath = .ok value
  removes : ∀ xpath ∈ removed, xpath ∈ xpathsOf tree ∧
    (∃ node, XPath.select tree xpath = some node) ∧
      ∃ schema_node, env.getSchemaByXPath xpath = .ok (some schema_node)
  updates : ∀ xpath ∈ updated, xpath ∈ xpathsOf target ∧ (XPath.select target xpath).isSome ∧
    ∃ schema_node, env.getSchemaByXPath xpath = .ok (some schema_node)

/-- An updated node can be revoked. Where it has an action on delete, its path can be cleared, and
as an item of its own it was not there, or has been removed before. Otherwise it was there with
the same item. -/
def Revocable (env : Env) (source target : Configuration) (removed : List Str) (xpath : Str) : Prop :=
  (HasTarget env xpath Config.PropertyName.ACTION_ON_DELETE_PATH →
      RevocationEncoded env target.tree xpath) ∧
    ∀ address ∈ addressOf env xpath,
      if address = .own xpath ∧ HasTarget env xpath Config.PropertyName.ACTION_ON_DELETE_PATH then
        xpath ∉ xpathsOf source.tree ∨ xpath ∈ removed
      else xpath ∈ xpathsOf source.tree ∧
        itemOf env target.jconfig xpath = itemOf env source.jconfig xpath

variable {target : Node} {base json_config : Json} {config_file : Option Json}
  {removed updated : List Str}

/-- The changes of a call that is taken back: deletions and updates, and then the revocations and
the restorations, the last ones first. -/
def changesTakenBack (env : Env) (config_file : Option Json) (source target : Configuration)
    (removed updated : List Str) : List (Change Str Json) :=
  changesAt (deleteAction env config_file) removed ++
      changesAt (updateAction env source.jconfig target.jconfig) updated ++
    (changesAt (revokeAction env target.tree) updated.reverse ++
      changesAt (restoreAction env (some source.tree) source.jconfig) removed.reverse)

/-- An updated node that has an item is posted with it. -/
theorem changeAt_updateAction {xpath : Str} {address : Address}
    (encodes : ∃ message, updateAction env jconfig json_config xpath = .ok message)
    (addressed : address ∈ addressOf env xpath) :
    ∃ change item, changeAt (updateAction env jconfig json_config) xpath = some change ∧
      itemOf env json_config xpath = some item ∧ change.Inserts item := by
  obtain ⟨message, encoded⟩ := encodes
  rcases updateAction_spec encoded with ⟨_, missing⟩ | ⟨post, item, rfl, here, _⟩
  · cases missing.symm.trans addressed
  · have asks : changeAt (updateAction env jconfig json_config) xpath = some post.action.change := by
      unfold changeAt
      rw [encoded]
      rfl
    exact ⟨_, item, asks, here, (update_inserts_iff asks).mpr here⟩

/-- The path of a revoked node is cleared. -/
theorem changeAt_revokeAction {xpath : Str} {node_config : Node}
    (encodes : RevocationEncoded env node_config xpath) :
    changeAt (revokeAction env node_config) xpath = some (.clear xpath) := by
  obtain ⟨post, encoded⟩ := exists_revocation encodes
  have asks : changeAt (revokeAction env node_config) xpath = some post.action.change := by
    unfold changeAt
    rw [encoded]
    rfl
  rw [asks, (revocation_shape asks).2]

section Membership

variable (standing : Standing env tree target jconfig removed updated)
include standing

theorem Standing.settled_updates :
    Settled (changesAt (updateAction env jconfig json_config) updated) := by
  intro change member other otherMember item inserts erases
  obtain ⟨xpath, listed, asks⟩ := mem_changesAt.mp member
  obtain ⟨second, secondListed, secondAsks⟩ := mem_changesAt.mp otherMember
  have here := (update_inserts_iff asks).mp inserts
  obtain ⟨own, key⟩ := update_erases_own secondAsks erases
  have same : xpath = second := standing.apart.eq_of_item
    (List.mem_append_right _ (standing.updates second secondListed).1) (active_of_address own)
    (List.mem_append_right _ (standing.updates xpath listed).1) here key
  subst same
  exact update_spares secondAsks here erases

theorem Standing.onlyInsert_restorations :
    OnlyInsert (changesAt (restoreAction env (some tree) jconfig) removed.reverse) := by
  intro change member item erases
  obtain ⟨xpath, listed, asks⟩ := mem_changesAt.mp member
  obtain ⟨here, ⟨node, selected⟩, schema_node, found⟩ :=
    standing.removes xpath (List.mem_reverse.mp listed)
  obtain ⟨value, valued⟩ := standing.valued xpath here
  obtain ⟨post, encoded, rfl⟩ := changeAt_eq_some asks
  rcases restoreAction_cases found standing.document valued selected with
    ⟨_, silent⟩ | ⟨_, ⟨_, other, encoded', adds⟩ | ⟨_, ⟨_, _, _, other, encoded', adds⟩ |
      ⟨_, _, halts⟩⟩⟩
  · cases silent.symm.trans encoded
  · cases encoded'.symm.trans encoded
    rw [adds] at erases
    cases erases
  · cases encoded'.symm.trans encoded
    rw [adds] at erases
    cases erases
  · cases halts.symm.trans encoded

/-- What the backend holds after a call has been taken back. -/
theorem Standing.mem_iff {store : ItemStore.Store Str Json} {item : Str × Json} :
    item ∈ applyAll (changesTakenBack env config_file ⟨tree, jconfig⟩ ⟨target, json_config⟩ removed
        updated) store ↔
      (∃ xpath ∈ removed, ∃ change,
          changeAt (restoreAction env (some tree) jconfig) xpath = some change ∧
            change.Inserts item) ∨
        ((∃ xpath ∈ updated, ∃ change,
            changeAt (updateAction env jconfig json_config) xpath = some change ∧
              change.Inserts item) ∨
          (item ∈ store ∧ ∀ xpath ∈ removed, ∀ change,
            changeAt (deleteAction env config_file) xpath = some change → ¬ change.Erases item) ∧
            ∀ xpath ∈ updated, ∀ change,
              changeAt (updateAction env jconfig json_config) xpath = some change →
                ¬ change.Erases item) ∧
          ∀ xpath ∈ updated, ∀ change,
            changeAt (revokeAction env target) xpath = some change → ¬ change.Erases item := by
  have deletes : OnlyErase (changesAt (deleteAction env config_file) removed) := by
    intro change member
    obtain ⟨xpath, _, asks⟩ := mem_changesAt.mp member
    exact (deletion_shape asks).2.1
  have revokes : OnlyErase (changesAt (revokeAction env target) updated.reverse) := by
    intro change member
    obtain ⟨xpath, _, asks⟩ := mem_changesAt.mp member
    obtain ⟨_, rfl⟩ := revocation_shape asks
    exact fun _ impossible => impossible
  have exists_iff {encode : Str → Attempt (Option Post)} {nodes : List Str} :
      (∃ change ∈ changesAt encode nodes, change.Inserts item) ↔
        ∃ xpath ∈ nodes, ∃ change, changeAt encode xpath = some change ∧ change.Inserts item := by
    constructor
    · rintro ⟨change, member, inserts⟩
      obtain ⟨xpath, listed, asks⟩ := mem_changesAt.mp member
      exact ⟨xpath, listed, change, asks, inserts⟩
    · rintro ⟨xpath, listed, change, asks, inserts⟩
      exact ⟨change, mem_changesAt.mpr ⟨xpath, listed, asks⟩, inserts⟩
  have forall_iff {encode : Str → Attempt (Option Post)} {nodes : List Str} :
      (∀ change ∈ changesAt encode nodes, ¬ change.Erases item) ↔
        ∀ xpath ∈ nodes, ∀ change, changeAt encode xpath = some change → ¬ change.Erases item := by
    constructor
    · exact fun spares xpath listed change asks =>
        spares change (mem_changesAt.mpr ⟨xpath, listed, asks⟩)
    · intro spares change member
      obtain ⟨xpath, listed, asks⟩ := mem_changesAt.mp member
      exact spares xpath listed change asks
  have updates : Settled (changesAt (updateAction env jconfig json_config) updated) :=
    standing.settled_updates
  unfold changesTakenBack
  rw [mem_applyAll_takenBack deletes updates revokes standing.onlyInsert_restorations, exists_iff,
    exists_iff, forall_iff, forall_iff, forall_iff]
  simp only [List.mem_reverse]

/-- What is restored lies under the path of its node. -/
theorem Standing.restored_key {xpath : Str} {change : Change Str Json} {item : Str × Json}
    (listed : xpath ∈ removed)
    (asks : changeAt (restoreAction env (some tree) jconfig) xpath = some change)
    (inserts : change.Inserts item) : item.1 = xpath := by
  obtain ⟨here, ⟨node, selected⟩, schema_node, found⟩ := standing.removes xpath listed
  obtain ⟨value, valued⟩ := standing.valued xpath here
  obtain ⟨post, encoded, rfl⟩ := changeAt_eq_some asks
  rcases restoreAction_cases found standing.document valued selected with
    ⟨_, silent⟩ | ⟨_, ⟨_, other, encoded', adds⟩ | ⟨_, ⟨_, _, _, other, encoded', adds⟩ |
      ⟨_, _, halts⟩⟩⟩
  · cases silent.symm.trans encoded
  · cases encoded'.symm.trans encoded
    rw [adds] at inserts
    exact congrArg Prod.fst inserts
  · cases encoded'.symm.trans encoded
    rw [adds] at inserts
    exact congrArg Prod.fst inserts
  · cases halts.symm.trans encoded

theorem Standing.exists_restoreAction
    (restorable : ∀ xpath ∈ removed, Restorable env tree jconfig xpath) :
    ∀ xpath ∈ removed, ∃ message, restoreAction env (some tree) jconfig xpath = .ok message := by
  intro xpath listed
  obtain ⟨here, ⟨node, selected⟩, schema_node, found⟩ := standing.removes xpath listed
  obtain ⟨value, valued⟩ := standing.valued xpath here
  exact ((restorable xpath listed).restores found standing.document valued selected).1

theorem Standing.exists_revokeAction
    (revocable : ∀ xpath ∈ updated,
      Revocable env ⟨tree, jconfig⟩ ⟨target, json_config⟩ removed xpath) :
    ∀ xpath ∈ updated, ∃ message, revokeAction env target xpath = .ok message := by
  intro xpath listed
  obtain ⟨_, selected, schema_node, found⟩ := standing.updates xpath listed
  exact (exists_revokeAction_iff found selected).mpr (revocable xpath listed).1

/-- Nodes that can be taken back leave the items of the first tree. -/
theorem Standing.holdings_takenBack
    (encodes : ∀ xpath ∈ updated, ∃ message, updateAction env jconfig json_config xpath = .ok message)
    (restorable : ∀ xpath ∈ removed, Restorable env tree jconfig xpath)
    (revocable : ∀ xpath ∈ updated,
      Revocable env ⟨tree, jconfig⟩ ⟨target, json_config⟩ removed xpath) :
    applyAll (changesTakenBack env config_file ⟨tree, jconfig⟩ ⟨target, json_config⟩ removed updated)
      (holdings env tree jconfig) = holdings env tree jconfig := by
  have restores {xpath : Str} (listed : xpath ∈ removed) :
      changeAt (restoreAction env (some tree) jconfig) xpath =
        (itemOf env jconfig xpath).map fun item => .add item.1 item.2 := by
    obtain ⟨here, ⟨node, selected⟩, schema_node, found⟩ := standing.removes xpath listed
    obtain ⟨value, valued⟩ := standing.valued xpath here
    exact ((restorable xpath listed).restores found standing.document valued selected).2
  ext item
  rw [standing.mem_iff, mem_holdings]
  constructor
  · rintro (⟨xpath, listed, change, asks, inserts⟩ |
      ⟨⟨xpath, listed, change, asks, inserts⟩ | ⟨⟨held, _⟩, _⟩, uncleared⟩)
    · rw [restores listed] at asks
      obtain ⟨other, here, rfl⟩ := Option.map_eq_some_iff.mp asks
      have same : item = other := inserts
      exact ⟨xpath, (standing.removes xpath listed).1, same ▸ here⟩
    · have here := (update_inserts_iff asks).mp inserts
      obtain ⟨address, addressed, found⟩ := Option.bind_eq_some_iff.mp here
      obtain ⟨encoded, fits⟩ := revocable xpath listed
      have fits := fits address addressed
      split at fits
      · next clears =>
          obtain ⟨rfl, target⟩ := clears
          refine absurd (itemAt_key found) ?_
          exact uncleared xpath listed _ (changeAt_revokeAction (encoded target))
      · exact ⟨xpath, fits.1, fits.2 ▸ here⟩
    · exact held
  · rintro ⟨xpath, member, here⟩
    by_cases gone : xpath ∈ removed
    · refine Or.inl ⟨xpath, gone, .add item.1 item.2, ?_, rfl⟩
      rw [restores gone, here]
      rfl
    obtain ⟨address, addressed, found⟩ := Option.bind_eq_some_iff.mp here
    have unlisted {other : Str} (listed : other ∈ removed) : xpath ≠ other :=
      fun same => gone (same ▸ listed)
    refine Or.inr ⟨?_, ?_⟩
    · by_cases listed : xpath ∈ updated
      · obtain ⟨change, new, asks, there, inserts⟩ :=
          changeAt_updateAction (encodes xpath listed) addressed
        have fits := (revocable xpath listed).2 address addressed
        split at fits
        · exact (fits.elim (fun absent => absent member) gone).elim
        · cases there.symm.trans (fits.2.trans here)
          exact Or.inl ⟨xpath, listed, change, asks, inserts⟩
      · refine Or.inr ⟨⟨⟨xpath, member, here⟩, ?_⟩, ?_⟩
        · intro other removes change asks erases
          exact unlisted removes (standing.apart.eq_of_erases
            (List.mem_append_left _ (standing.removes other removes).1) (List.mem_append_left _ member) asks here
            erases)
        · intro other updates change asks erases
          obtain ⟨own, key⟩ := update_erases_own asks erases
          have same := standing.apart.eq_of_item
            (List.mem_append_right _ (standing.updates other updates).1) (active_of_address own)
            (List.mem_append_left _ member) here key
          exact listed (same ▸ updates)
    · intro other updates change asks erases
      obtain ⟨cleared, rfl⟩ := revocation_shape asks
      have same : xpath = other := standing.apart.eq_of_item
        (List.mem_append_right _ (standing.updates other updates).1) (Or.inl cleared)
        (List.mem_append_left _ member) here erases
      subst same
      have own := own_of_item_key here erases
      have fits := (revocable xpath updates).2 _ own
      rw [if_pos ⟨rfl, cleared⟩] at fits
      exact fits.elim (fun absent => absent member) gone

/-- Where the items of the first tree are left, the removed nodes can be restored. -/
theorem Standing.restorable
    (encodes : ∀ xpath ∈ removed, ∃ message, restoreAction env (some tree) jconfig xpath = .ok message)
    (kept : applyAll (changesTakenBack env config_file ⟨tree, jconfig⟩ ⟨target, json_config⟩ removed
      updated) (holdings env tree jconfig) = holdings env tree jconfig) :
    ∀ xpath ∈ removed, Restorable env tree jconfig xpath := by
  intro xpath listed update
  obtain ⟨member, ⟨node, selected⟩, schema_node, found⟩ := standing.removes xpath listed
  obtain ⟨value, valued⟩ := standing.valued xpath member
  have holds {post : Post} {added : Json}
      (encoded : restoreAction env (some tree) jconfig xpath = .ok (some post))
      (adds : post.action.change = .add xpath added) :
      itemOf env jconfig xpath = some (xpath, added) := by
    have restored : (xpath, added) ∈ applyAll (changesTakenBack env config_file ⟨tree, jconfig⟩
        ⟨target, json_config⟩ removed updated) (holdings env tree jconfig) := by
      refine standing.mem_iff.mpr (Or.inl ⟨xpath, listed, post.action.change, ?_, ?_⟩)
      · unfold changeAt
        rw [encoded]
        rfl
      · rw [adds]
        exact rfl
    rw [kept] at restored
    obtain ⟨other, otherMember, here⟩ := mem_holdings.mp restored
    have same := standing.apart.eq_of_item (List.mem_append_left _ member) (Or.inr update)
      (List.mem_append_left _ otherMember) here rfl
    rw [← same]
    exact same ▸ here
  rcases restoreAction_cases found standing.document valued selected with
    ⟨untargeted, _⟩ | ⟨_, ⟨leaf, post, encoded, adds⟩ | ⟨_, ⟨_, _, _, post, encoded, adds⟩ |
      ⟨_, reason, halts⟩⟩⟩
  · exact absurd update untargeted
  · exact ⟨own_of_item_key (holds encoded adds) rfl, Or.inl ⟨node, selected, leaf⟩⟩
  · have here := holds encoded adds
    have own := own_of_item_key here rfl
    cases (itemOf_own own valued).symm.trans here
    exact ⟨own, Or.inr valued⟩
  · obtain ⟨_, impossible⟩ := encodes xpath listed
    cases halts.symm.trans impossible

/-- Where the items of the first tree are left, the updated nodes can be revoked. -/
theorem Standing.revocable
    (encodes : ∀ xpath ∈ updated, ∃ message, updateAction env jconfig json_config xpath = .ok message)
    (revokes : ∀ xpath ∈ updated, ∃ message, revokeAction env target xpath = .ok message)
    (kept : applyAll (changesTakenBack env config_file ⟨tree, jconfig⟩ ⟨target, json_config⟩ removed
      updated) (holdings env tree jconfig) = holdings env tree jconfig) :
    ∀ xpath ∈ updated, Revocable env ⟨tree, jconfig⟩ ⟨target, json_config⟩ removed xpath := by
  intro xpath listed
  obtain ⟨there, selected, schema_node, found⟩ := standing.updates xpath listed
  have encoded := (exists_revokeAction_iff found selected).mp (revokes xpath listed)
  refine ⟨encoded, fun address addressed => ?_⟩
  split
  · next clears =>
      obtain ⟨rfl, cleared⟩ := clears
      by_contra neither
      obtain ⟨member, stays⟩ := not_or.mp neither
      rw [not_not] at member
      obtain ⟨value, valued⟩ := standing.valued xpath member
      have here := itemOf_own addressed valued
      have held : (xpath, value) ∈ holdings env tree jconfig := mem_holdings.mpr ⟨xpath, member, here⟩
      rw [← kept] at held
      rcases standing.mem_iff.mp held with ⟨other, removes, change, asks, inserts⟩ | ⟨_, uncleared⟩
      · have same : xpath = other := standing.restored_key removes asks inserts
        exact stays (same ▸ removes)
      · exact uncleared xpath listed _ (changeAt_revokeAction (encoded cleared)) rfl
  · next stands =>
      obtain ⟨change, item, asks, here, inserts⟩ :=
        changeAt_updateAction (encodes xpath listed) addressed
      have held : item ∈ holdings env tree jconfig := by
        rw [← kept]
        refine standing.mem_iff.mpr (Or.inr ⟨Or.inl ⟨xpath, listed, change, asks, inserts⟩, ?_⟩)
        intro other updates change asks erases
        obtain ⟨cleared, rfl⟩ := revocation_shape asks
        have same : xpath = other := standing.apart.eq_of_item
          (List.mem_append_right _ (standing.updates other updates).1) (Or.inl cleared)
          (List.mem_append_right _ there) here erases
        subst same
        have own := own_of_item_key here erases
        cases addressed.symm.trans own
        exact stands ⟨rfl, cleared⟩
      obtain ⟨other, member, holds⟩ := mem_holdings.mp held
      have same := standing.apart.eq_of_items (List.mem_append_right _ there)
        (List.mem_append_left _ member) here holds
      subst same
      exact ⟨member, here.trans holds.symm⟩

/-- A call whose messages are not taken back leaves the items of the first tree exactly where every
updated node was there with the same item, and every removed one whose item is taken is updated. -/
theorem Standing.holdings_left_iff
    (encodes : ∀ xpath ∈ updated, ∃ message, updateAction env jconfig json_config xpath = .ok message) :
    applyAll (changesAt (deleteAction env config_file) removed ++
        changesAt (updateAction env jconfig json_config) updated) (holdings env tree jconfig) =
        holdings env tree jconfig ↔
      (∀ xpath ∈ updated, (addressOf env xpath).isSome → xpath ∈ xpathsOf tree ∧
        itemOf env json_config xpath = itemOf env jconfig xpath) ∧
      ∀ xpath ∈ removed, TakesItem env config_file jconfig xpath → xpath ∈ updated := by
  have deletes : OnlyErase (changesAt (deleteAction env config_file) removed) := by
    intro change member
    obtain ⟨xpath, _, asks⟩ := mem_changesAt.mp member
    exact (deletion_shape asks).2.1
  have updates : Settled (changesAt (updateAction env jconfig json_config) updated) :=
    standing.settled_updates
  have whole (item : Str × Json) :
      item ∈ applyAll (changesAt (updateAction env jconfig json_config) updated)
          (applyAll (changesAt (deleteAction env config_file) removed) (holdings env tree jconfig)) ↔ _ :=
    mem_applyAll_of_settled updates
  rw [applyAll_append]
  constructor
  · intro kept
    refine ⟨fun xpath listed posted => ?_, fun xpath listed takes => ?_⟩
    · obtain ⟨address, addressed⟩ := Option.isSome_iff_exists.mp posted
      obtain ⟨change, item, asks, here, inserts⟩ :=
        changeAt_updateAction (encodes xpath listed) addressed
      have held := (whole item).mpr (Or.inl ⟨change, mem_changesAt.mpr ⟨xpath, listed, asks⟩, inserts⟩)
      rw [kept] at held
      obtain ⟨other, member, holds⟩ := mem_holdings.mp held
      have same := standing.apart.eq_of_items
        (List.mem_append_right _ (standing.updates xpath listed).1) (List.mem_append_left _ member) here
        holds
      subst same
      exact ⟨member, here.trans holds.symm⟩
    · obtain ⟨item, here⟩ := takes.item
      have member := (standing.removes xpath listed).1
      have held : item ∈ holdings env tree jconfig := mem_holdings.mpr ⟨xpath, member, here⟩
      rw [← kept] at held
      rcases (whole item).mp held with ⟨change, changes, inserts⟩ | ⟨stays, _⟩
      · obtain ⟨other, updates, asks⟩ := mem_changesAt.mp changes
        have same := standing.apart.eq_of_items (List.mem_append_left _ member)
          (List.mem_append_right _ (standing.updates other updates).1) here
          ((update_inserts_iff asks).mp inserts)
        exact same ▸ updates
      · obtain ⟨change, asks, erases⟩ := takes.erases here
        exact absurd erases
          ((deletes.mem_applyAll_iff.mp stays).2 change (mem_changesAt.mpr ⟨xpath, listed, asks⟩))
  · rintro ⟨same, again⟩
    ext item
    rw [whole, deletes.mem_applyAll_iff, mem_holdings]
    constructor
    · rintro (⟨change, changes, inserts⟩ | ⟨⟨held, _⟩, _⟩)
      · obtain ⟨xpath, listed, asks⟩ := mem_changesAt.mp changes
        have here := (update_inserts_iff asks).mp inserts
        obtain ⟨address, addressed, _⟩ := Option.bind_eq_some_iff.mp here
        obtain ⟨member, unchanged⟩ := same xpath listed (by rw [addressed]; rfl)
        exact ⟨xpath, member, unchanged ▸ here⟩
      · exact held
    · rintro ⟨xpath, member, here⟩
      obtain ⟨address, addressed, _⟩ := Option.bind_eq_some_iff.mp here
      by_cases listed : xpath ∈ updated
      · obtain ⟨change, other, asks, there, inserts⟩ :=
          changeAt_updateAction (encodes xpath listed) addressed
        cases there.symm.trans ((same xpath listed (by rw [addressed]; rfl)).2.trans here)
        exact Or.inl ⟨change, mem_changesAt.mpr ⟨xpath, listed, asks⟩, inserts⟩
      · refine Or.inr ⟨⟨⟨xpath, member, here⟩, fun change changes erases => ?_⟩,
          fun change changes erases => ?_⟩
        · obtain ⟨other, removes, asks⟩ := mem_changesAt.mp changes
          have sameNode := standing.apart.eq_of_erases
            (List.mem_append_left _ (standing.removes other removes).1) (List.mem_append_left _ member)
            asks here erases
          subst sameNode
          exact listed (again xpath removes (takesItem_of_erases asks here erases))
        · obtain ⟨other, changed, asks⟩ := mem_changesAt.mp changes
          obtain ⟨own, key⟩ := update_erases_own asks erases
          have sameNode := standing.apart.eq_of_item
            (List.mem_append_right _ (standing.updates other changed).1) (active_of_address own)
            (List.mem_append_left _ member) here key
          exact listed (sameNode ▸ changed)

end Membership

end TakenBack

end FlexConfig
