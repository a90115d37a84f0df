import FlexConfig.Backend.Addresses

/-! # What a deletion takes

The message that deletes a node goes by the schema of the parent, and by the value that the
configuration file has. It takes the item of the node where these fit the node's own schema.
-/

namespace FlexConfig

open Procedure ItemStore

/-- Whether the schema of a node's parent says that the node is named in it. -/
def namedByParent (env : Env) (xpath : Str) : Attempt Bool := do
  let pointer ← Json.Pointer.parse xpath
  let parent ← env.GetJsonSchemaByXPath (Json.Pointer.print pointer.dropLast)
  return parent.hasContainerType

/-- The deletion of a node takes its item. The node has an action on delete, its parent's schema
says as its own whether it is named in its parent, and where it is not, the configuration file has
the value of the item or null. -/
def TakesItem (env : Env) (config_file : Option Json) (jconfig : Json) (xpath : Str) : Prop :=
  match addressOf env xpath, itemOf env jconfig xpath with
  | some (.own _), some item =>
    HasTarget env xpath Config.PropertyName.ACTION_ON_DELETE_PATH ∧
      namedByParent env xpath = .ok false ∧
      (getConfigNode config_file xpath = .ok item.2 ∨ getConfigNode config_file xpath = .ok .null)
  | some (.member _ _), some _ =>
    HasTarget env xpath Config.PropertyName.ACTION_ON_DELETE_PATH ∧
      namedByParent env xpath = .ok true ∧ (getConfigNode config_file xpath).toOption.isSome
  | _, _ => False

instance (env : Env) (config_file : Option Json) (jconfig : Json) (xpath : Str) :
    Decidable (TakesItem env config_file jconfig xpath) := by
  unfold TakesItem
  split <;> infer_instance

/-- The deletion of a node goes to its item: it takes it, and a node without one has no action on
delete. -/
def Deletes (env : Env) (config_file : Option Json) (jconfig : Json) (xpath : Str) : Prop :=
  if (itemOf env jconfig xpath).isSome then TakesItem env config_file jconfig xpath
  else ¬ HasTarget env xpath Config.PropertyName.ACTION_ON_DELETE_PATH

instance (env : Env) (config_file : Option Json) (jconfig : Json) (xpath : Str) :
    Decidable (Deletes env config_file jconfig xpath) := by
  unfold Deletes
  infer_instance

section Deletion

variable {env : Env} {config_file : Option Json} {jconfig : Json} {xpath : Str}

/-- Nothing is asked for at a node without an action on delete. -/
theorem changeAt_deleteAction_of_silent 
    (silent : ¬ HasTarget env xpath Config.PropertyName.ACTION_ON_DELETE_PATH) :
    changeAt (deleteAction env config_file) xpath = none := by
  unfold changeAt
  cases encoded : deleteAction env config_file xpath with
  | error reason => rfl
  | ok message =>
      cases message with
      | none => rfl
      | some message =>
          obtain ⟨schema_node, looked, encoded⟩ := except_bind_eq_ok.mp encoded
          split at encoded
          · cases encoded
          · next server resource target =>
              exact absurd ⟨schema_node, getSchemaByXPath_of_schemaNodeAt looked, by rw [target]; rfl⟩
                silent

/-- What the deletion of a node below the root asks for. -/
theorem changeAt_deleteAction {named : Bool} {jnode : Json}
    (target : HasTarget env xpath Config.PropertyName.ACTION_ON_DELETE_PATH)
    (parent : namedByParent env xpath = .ok named)
    (value : getConfigNode config_file xpath = .ok jnode) :
    ∃ pointer, Json.Pointer.parse xpath = .ok pointer ∧
      (named = true → ∃ name, pointer.getLast? = some name ∧
        changeAt (deleteAction env config_file) xpath =
          some (.remove (Json.Pointer.print pointer.dropLast) (.string name))) ∧
      (named = false → changeAt (deleteAction env config_file) xpath =
        some (if jnode = .null then .clear xpath else .remove xpath jnode)) := by
  obtain ⟨schema_node, found, answered⟩ := target
  obtain ⟨pointer, parsed, parent⟩ := except_bind_eq_ok.mp parent
  obtain ⟨schema, isParent, finished⟩ := except_bind_eq_ok.mp parent
  cases finished
  have below : pointer ≠ [] := by
    rintro rfl
    rw [Json.Pointer.parse_eq_nil parsed] at found
    exact not_isSome_target_of_root found answered
  obtain ⟨post, encoded⟩ := exists_deletion
    ⟨⟨schema_node, found, answered⟩, pointer, jnode, below, parsed, value, isParent⟩
  have asks : changeAt (deleteAction env config_file) xpath = some post.action.change := by
    unfold changeAt
    rw [encoded]
    rfl
  obtain ⟨node, looked, encoded⟩ := except_bind_eq_ok.mp encoded
  split at encoded
  · cases encoded
  obtain ⟨value', read, encoded⟩ := except_bind_eq_ok.mp encoded
  cases value.symm.trans read
  obtain ⟨pointer', parsed', encoded⟩ := except_bind_eq_ok.mp encoded
  cases parsed.symm.trans parsed'
  obtain ⟨schema', isParent', encoded⟩ := except_bind_eq_ok.mp encoded
  cases isParent.symm.trans isParent'
  refine ⟨pointer, parsed, fun container => ?_, fun plain => ?_⟩
  · rw [if_pos container] at encoded
    obtain ⟨action, acts, finished⟩ := except_bind_eq_ok.mp encoded
    cases finished
    obtain ⟨name, last, removes, path, named⟩ := namedInParent_eq_ok acts
    refine ⟨name, last, asks.trans ?_⟩
    unfold Action.change
    rw [removes, path, named]
    rfl
  · rw [if_neg (Bool.eq_false_iff.mp plain)] at encoded
    cases encoded
    rw [asks]
    unfold Action.change diffValue
    by_cases null : jnode = .null
    · rw [if_pos null, if_pos null]
      rfl
    · rw [if_neg null, if_neg null]
      exact congrArg some (if_neg null)

/-- The deletion that takes an item names it, or clears the path of a node that is an item of its
own. -/
theorem TakesItem.asks {item : Str × Json}
    (takes : TakesItem env config_file jconfig xpath) (here : itemOf env jconfig xpath = some item) :
    changeAt (deleteAction env config_file) xpath = some (.remove item.1 item.2) ∨
      (addressOf env xpath = some (.own xpath) ∧
        changeAt (deleteAction env config_file) xpath = some (.clear xpath)) := by
  unfold TakesItem at takes
  obtain ⟨address, addressed, found⟩ := Option.bind_eq_some_iff.mp here
  rw [here, addressed] at takes
  cases address with
  | own path =>
      have same := own_of_addressOf addressed
      subst same
      obtain ⟨value, _, rfl⟩ := Option.map_eq_some_iff.mp found
      obtain ⟨target, plain, read | read⟩ := takes
      · obtain ⟨_, _, _, asks⟩ := changeAt_deleteAction target plain read
        rw [asks rfl]
        by_cases null : value = .null
        · rw [if_pos null]
          exact Or.inr ⟨addressed, rfl⟩
        · rw [if_neg null]
          exact Or.inl rfl
      · obtain ⟨_, _, _, asks⟩ := changeAt_deleteAction target plain read
        exact Or.inr ⟨addressed, (asks rfl).trans (congrArg some (if_pos rfl))⟩
  | member parent name =>
      obtain ⟨target, container, reads⟩ := takes
      obtain ⟨jnode, read⟩ := Option.isSome_iff_exists.mp reads
      obtain ⟨pointer, parsed, asks, _⟩ :=
        changeAt_deleteAction target container (mem_toOption.mp read)
      obtain ⟨last, isLast, asks⟩ := asks rfl
      obtain ⟨_, own, pointer', _, _, _, parsed', byOwn⟩ := addressOf_cases addressed
      cases parsed.symm.trans parsed'
      unfold addressBy at byOwn
      split at byOwn
      · obtain ⟨name', isLast', same⟩ := Option.map_eq_some_iff.mp byOwn
        cases isLast.symm.trans isLast'
        cases same
        cases found
        exact Or.inl asks
      · cases byOwn

/-- The deletion of a node that goes to its item names it or clears its path. For a node without
an item nothing is posted. -/
theorem Deletes.asks 
    (deletes : Deletes env config_file jconfig xpath) :
    match itemOf env jconfig xpath with
    | none => changeAt (deleteAction env config_file) xpath = none
    | some item =>
      changeAt (deleteAction env config_file) xpath = some (.remove item.1 item.2) ∨
        (addressOf env xpath = some (.own xpath) ∧
          changeAt (deleteAction env config_file) xpath = some (.clear xpath)) := by
  unfold Deletes at deletes
  cases here : itemOf env jconfig xpath with
  | none =>
      rw [here] at deletes
      exact changeAt_deleteAction_of_silent deletes
  | some item =>
      rw [here] at deletes
      exact deletes.asks here

/-- A deletion inserts nothing, and erases the item of its node and none of another address. -/
theorem deletion_spec {change : Change Str Json}
    (deletes : Deletes env config_file jconfig xpath)
    (asks : changeAt (deleteAction env config_file) xpath = some change) :
    (∀ item, ¬ change.Inserts item) ∧
      ∃ item, itemOf env jconfig xpath = some item ∧ ∀ other, change.Erases other →
        other = item ∨ (addressOf env xpath = some (.own xpath) ∧ other.1 = xpath) := by
  have goes := deletes.asks
  cases here : itemOf env jconfig xpath with
  | none =>
      rw [here] at goes
      cases goes.symm.trans asks
  | some item =>
      rw [here] at goes
      rcases goes with removal | ⟨own, clearing⟩
      · cases removal.symm.trans asks
        exact ⟨fun _ impossible => impossible, item, rfl, fun _ erases => Or.inl erases⟩
      · cases clearing.symm.trans asks
        exact ⟨fun _ impossible => impossible, item, rfl, fun _ erases => Or.inr ⟨own, erases⟩⟩

/-- The item of a removed node is erased by the node's deletion. -/
theorem deletion_erases {item : Str × Json}
    (deletes : Deletes env config_file jconfig xpath)
    (here : itemOf env jconfig xpath = some item) :
    ∃ change, changeAt (deleteAction env config_file) xpath = some change ∧
      change.Erases item := by
  have goes := deletes.asks
  rw [here] at goes
  rcases goes with removal | ⟨own, clearing⟩
  · exact ⟨_, removal, rfl⟩
  · refine ⟨_, clearing, ?_⟩
    obtain ⟨address, addressed, found⟩ := Option.bind_eq_some_iff.mp here
    rw [own] at addressed
    cases addressed
    exact itemAt_key found

/-- A member of an item does not lie under its own path. -/
theorem key_ne_of_member {parent name : Str}
    (addressed : addressOf env xpath = some (.member parent name)) : parent ≠ xpath := by
  obtain ⟨_, own, pointer, _, _, _, parsed, byOwn⟩ := addressOf_cases addressed
  unfold addressBy at byOwn
  split at byOwn
  · obtain ⟨_, last, named⟩ := Option.map_eq_some_iff.mp byOwn
    cases named
    refine print_dropLast_ne parsed ?_
    rintro rfl
    cases last
  · cases byOwn

/-- Only an item of its own lies under the path of its node. -/
theorem own_of_item_key {item : Str × Json} (here : itemOf env jconfig xpath = some item)
    (key : item.1 = xpath) : addressOf env xpath = some (.own xpath) := by
  obtain ⟨address, addressed, found⟩ := Option.bind_eq_some_iff.mp here
  cases address with
  | own path =>
      rw [addressed, own_of_addressOf addressed]
  | member parent name =>
      exact absurd ((itemAt_key found).symm.trans key) (key_ne_of_member addressed)

/-- What a deletion that is posted has read. -/
theorem deletion_reads {change : Change Str Json}
    (asks : changeAt (deleteAction env config_file) xpath = some change) :
    HasTarget env xpath Config.PropertyName.ACTION_ON_DELETE_PATH ∧
      ∃ named jnode, namedByParent env xpath = .ok named ∧
        getConfigNode config_file xpath = .ok jnode := by
  obtain ⟨post, encoded, _⟩ := changeAt_eq_some asks
  obtain ⟨schema_node, looked, encoded⟩ := except_bind_eq_ok.mp encoded
  split at encoded
  · cases encoded
  next server resource target =>
  obtain ⟨jnode, read, encoded⟩ := except_bind_eq_ok.mp encoded
  obtain ⟨pointer, parsed, encoded⟩ := except_bind_eq_ok.mp encoded
  obtain ⟨schema, isParent, encoded⟩ := except_bind_eq_ok.mp encoded
  exact ⟨⟨schema_node, getSchemaByXPath_of_schemaNodeAt looked, by rw [target]; rfl⟩,
    schema.hasContainerType, jnode,
    except_bind_eq_ok.mpr ⟨pointer, parsed, except_bind_eq_ok.mpr ⟨schema, isParent, rfl⟩⟩, read⟩

/-- A deletion inserts nothing, and what it erases is under the path of its node, or is its node
as a member of a parent that lists its nodes. -/
theorem deletion_shape {change : Change Str Json}
    (asks : changeAt (deleteAction env config_file) xpath = some change) :
    HasTarget env xpath Config.PropertyName.ACTION_ON_DELETE_PATH ∧
      (∀ item, ¬ change.Inserts item) ∧ ∀ item, change.Erases item → item.1 = xpath ∨
        ∃ pointer name, Json.Pointer.parse xpath = .ok pointer ∧ pointer.getLast? = some name ∧
          namedByParent env xpath = .ok true ∧
          item = (Json.Pointer.print pointer.dropLast, .string name) := by
  obtain ⟨has, container, jnode, parent, read⟩ := deletion_reads asks
  obtain ⟨pointer, parsed, named, plain⟩ := changeAt_deleteAction has parent read
  refine ⟨has, ?_⟩
  cases container with
  | true =>
      obtain ⟨name, last, removes⟩ := named rfl
      cases asks.symm.trans removes
      exact ⟨fun _ impossible => impossible,
        fun item erases => Or.inr ⟨pointer, name, parsed, last, parent, erases⟩⟩
  | false =>
      have same := asks.symm.trans (plain rfl)
      by_cases null : jnode = .null
      · rw [if_pos null] at same
        cases same
        exact ⟨fun _ impossible => impossible, fun item erases => Or.inl erases⟩
      · rw [if_neg null] at same
        cases same
        exact ⟨fun _ impossible => impossible, fun item erases => Or.inl (congrArg Prod.fst erases)⟩

theorem TakesItem.item (takes : TakesItem env config_file jconfig xpath) :
    ∃ item, itemOf env jconfig xpath = some item := by
  unfold TakesItem at takes
  cases here : itemOf env jconfig xpath with
  | some item => exact ⟨item, rfl⟩
  | none =>
      rw [here] at takes
      split at takes
      · next impossible => cases impossible
      · next impossible => cases impossible
      · exact takes.elim

theorem TakesItem.erases {item : Str × Json} (takes : TakesItem env config_file jconfig xpath)
    (here : itemOf env jconfig xpath = some item) :
    ∃ change, changeAt (deleteAction env config_file) xpath = some change ∧ change.Erases item := by
  rcases takes.asks here with removal | ⟨own, clearing⟩
  · exact ⟨_, removal, rfl⟩
  · refine ⟨_, clearing, ?_⟩
    obtain ⟨address, addressed, found⟩ := Option.bind_eq_some_iff.mp here
    rw [own] at addressed
    cases addressed
    exact itemAt_key found

/-- A deletion that erases the item of its node takes it. -/
theorem takesItem_of_erases {item : Str × Json} {change : Change Str Json}
    (asks : changeAt (deleteAction env config_file) xpath = some change)
    (here : itemOf env jconfig xpath = some item) (erases : change.Erases item) :
    TakesItem env config_file jconfig xpath := by
  obtain ⟨target, named, jnode, parent, read⟩ := deletion_reads asks
  obtain ⟨pointer, parsed, listed, plain⟩ := changeAt_deleteAction target parent read
  obtain ⟨address, addressed, found⟩ := Option.bind_eq_some_iff.mp here
  unfold TakesItem
  rw [here, addressed]
  cases named with
  | true =>
      obtain ⟨name, last, removes⟩ := listed rfl
      cases asks.symm.trans removes
      have same : item = (Json.Pointer.print pointer.dropLast, .string name) := erases
      subst same
      cases address with
      | own path =>
          have below : pointer ≠ [] := by
            rintro rfl
            cases last
          have same := own_of_addressOf addressed
          exact absurd ((itemAt_key found).trans same) (print_dropLast_ne parsed below)
      | member path last => exact ⟨target, parent, by rw [read]; rfl⟩
  | false =>
      cases asks.symm.trans (plain rfl)
      have key : item.1 = xpath ∧ (jnode = .null ∨ jnode = item.2) := by
        by_cases null : jnode = .null
        · rw [if_pos null] at erases
          exact ⟨erases, Or.inl null⟩
        · rw [if_neg null] at erases
          exact ⟨congrArg Prod.fst erases, Or.inr (congrArg Prod.snd erases).symm⟩
      have own := own_of_item_key here key.1
      rw [addressed] at own
      cases own
      refine ⟨target, parent, ?_⟩
      rcases key.2 with null | same
      · exact Or.inr (null ▸ read)
      · exact Or.inl (same ▸ read)

end Deletion

end FlexConfig
