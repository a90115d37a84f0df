import FlexConfig.Json.Order
import FlexConfig.Manager.Exactness
import FlexConfig.Manager.Isolation
import FlexConfig.Manager.Patches
import FlexConfig.Schema.Overlay
import FlexConfig.Tree.Paths
import FlexConfig.Tree.Select

/-! # The tree that a patch leads to

The routine edits the tree it is given in place: it takes the removed nodes out, and for every other
operation of the patch it loads what is below the parent of the path anew, under the schema that it
looks up for the path of that parent. Where all of this is as the tree of the patched document has
it, and nothing else differs, this tree is what the routine ends up with (`editNodes_of_reaches`).
-/

namespace FlexConfig

open Procedure Schema

section Names

/-- Every node of a tree is selected by its path, whatever else is in the tree. -/
def PlainNames (root : Node) : Prop :=
  ∀ visited ∈ root.nodes, ∀ name ∈ visited.location, XPath.IsPlainName name ∧ Text.NUL ∉ name

instance (root : Node) : Decidable (PlainNames root) :=
  inferInstanceAs (Decidable (∀ _ ∈ _, _))

/-- A location is read back from its path. -/
def PlainLocation (location : Location) : Prop :=
  ∀ name ∈ location, XPath.IsPlainName name ∧ Text.NUL ∉ name

variable {root node : Node} {location : Location}

theorem PlainNames.of_get (plain : PlainNames root) (found : root.get location = some node) :
    PlainLocation location := by
  cases location with
  | nil => exact fun _ impossible => absurd impossible List.not_mem_nil
  | cons name rest =>
      exact plain _ (Node.mem_preorder_of_get found (List.cons_ne_nil _ _))

theorem PlainLocation.isPathName (plain : PlainLocation location) :
    ∀ name ∈ location, XPath.IsPathName name := by
  intro name member
  obtain ⟨⟨token, unsubscripted, _⟩, _⟩ := plain name member
  exact ⟨token, fun starts => unsubscripted.1 (List.mem_of_mem_head? starts)⟩

theorem PlainLocation.parse (plain : PlainLocation location) :
    XPath.parse (XPath.toString location) = location :=
  (XPath.parse_toString_iff plain.isPathName).mpr fun name member => (plain name member).2

theorem PlainLocation.select (plain : PlainLocation location) (below : location ≠ [])
    (found : root.get location = some node) :
    XPath.select root (XPath.toString location) = some ⟨location, node⟩ :=
  (XPath.select_toString_iff below found fun name member => (plain name member).1).mpr
    (.inl fun name member => (plain name member).2)

/-- A node is selected by the path that its names are merged to, the root included. -/
theorem PlainLocation.select_mergeTokens (plain : PlainLocation location)
    (found : root.get location = some node) :
    XPath.select root (XPath.mergeTokens location) = some ⟨location, node⟩ := by
  cases location with
  | nil =>
      cases found
      rfl
  | cons name rest =>
      have below := List.cons_ne_nil name rest
      rw [← XPath.toString_eq_mergeTokens plain.isPathName below]
      exact plain.select below found

/-- A path is below that of a node above it. -/
theorem PlainLocation.isBelow {upper lower : Location} (plainUpper : PlainLocation upper)
    (plainLower : PlainLocation lower) (above : upper <+: lower) (differs : upper ≠ lower) :
    IsBelow (XPath.toString upper) (XPath.toString lower) := by
  obtain ⟨rest, rfl⟩ := above
  rw [XPath.toString_eq_join plainUpper.isPathName, XPath.toString_eq_join plainLower.isPathName]
  cases rest with
  | nil => exact absurd (List.append_nil upper).symm differs
  | cons name others =>
      refine ⟨name ++ XPath.join others, ?_⟩
      simp only [XPath.join, List.flatMap_append, List.flatMap_cons, List.append_assoc]

end Names

section Intended

/-- The nodes that a patch takes out of a tree: those of the copied containers that have a schema
and a path in which a removed path occurs, unless they are above a removed path. Where the copied
containers cannot be sorted there are none. -/
def IsRemoved (env : Env) (items : List DiffItem) (source : Node) (xpath : Str) : Prop :=
  Sorts env (removalTree items source) ∧ Orderable env (removalTree items source) xpath ∧
    xpath ∉ pathNodesOfPatch items ∧ mentions (removePaths items) xpath = true

/-- The nodes of a tree that a patch updates: those with a schema and a path in which an updated
path occurs. Where the tree cannot be sorted there are none. -/
def IsUpdated (env : Env) (items : List DiffItem) (target : Node) (xpath : Str) : Prop :=
  Sorts env target ∧ Orderable env target xpath ∧ mentions (updatePaths items) xpath = true

instance (env : Env) (items : List DiffItem) (source : Node) (xpath : Str) :
    Decidable (IsRemoved env items source xpath) := inferInstanceAs (Decidable (_ ∧ _))

instance (env : Env) (items : List DiffItem) (target : Node) (xpath : Str) :
    Decidable (IsUpdated env items target xpath) := inferInstanceAs (Decidable (_ ∧ _))

variable {env : Env} {items : List DiffItem} {source : Node}

/-- The removed nodes are listed. -/
theorem mem_removal_iff {patch jconfig : Json} {removal : Removal}
    (planned : planRemoval env patch jconfig source = .ok removal)
    (parsed : patch.patchItems = .ok items) {xpath : Str} :
    xpath ∈ removal.ordered ↔ IsRemoved env items source xpath := by
  obtain ⟨ordered, resolved, listed⟩ := planRemoval_ordered planned parsed
  obtain ⟨_, sorted, unsorted⟩ := resolve_spec resolved
  rw [listed, List.mem_reverse, List.mem_filter, List.mem_filter, and_assoc, decide_eq_true_iff]
  by_cases sorts : Sorts env (removalTree items source)
  · rw [sorted sorts, IsRemoved, and_iff_right sorts]
  · rw [unsorted sorts]
    exact iff_of_false (fun both => absurd both.1 List.not_mem_nil) fun removed => sorts removed.1

/-- The updated nodes are listed. -/
theorem mem_ordered_iff {removal : Removal} {before : Draft} {json_config : Json} {edited : Node}
    {ordered : List Str} {saved : References}
    (prepared : Prepared env items removal before json_config edited ordered saved) {xpath : Str} :
    xpath ∈ ordered ↔ IsUpdated env items edited xpath := by
  obtain ⟨resolved, orders, listed, _, _⟩ := prepared_ordered prepared
  obtain ⟨_, sorted, unsorted⟩ := resolve_spec orders
  rw [listed, List.mem_filter]
  by_cases sorts : Sorts env edited
  · rw [sorted sorts, IsUpdated, and_iff_right sorts]
  · rw [unsorted sorts]
    exact iff_of_false (fun both => absurd both.1 List.not_mem_nil) fun updated => sorts updated.1

/-- What a tree holds where no node at or above the location is removed. -/
def leftHolds (env : Env) (items : List DiffItem) (source : Node) (location : Location) :
    Option (Option Str) :=
  if ∃ visited ∈ source.nodes, visited.location <+: location ∧
      IsRemoved env items source (XPath.toString visited.location) then none
  else source.holds location

/-- Where the nodes of an operation are loaded: below the parent of its path. -/
def parentOf (item : DiffItem) : Location := (XPath.parse item.path).dropLast

/-- What a document has below a node, as the schema that is found under the path of this node has
it. -/
def loadedBelow (env : Env) (document : Json) (parent : Location) : Attempt Node := do
  let jschema ← env.GetJsonSchemaByXPath (XPath.mergeTokens parent)
  if jschema = .object [] then .error .rejected
  else
    match subnodeLoader env jschema with
    | none => return .empty
    | some load =>
      let pointer ← Json.Pointer.parse (XPath.mergeTokens parent)
      let jnode ← document.atPointer pointer
      match load jnode .empty with
      | .ok _ loaded => return loaded
      | .error reason _ => .error reason

/-- An operation loads what is at a location. -/
def Covers (env : Env) (document : Json) (item : DiffItem) (location : Location) : Prop :=
  item.isRemove = false ∧ ∃ loaded name below, loadedBelow env document (parentOf item) = .ok loaded ∧
    location = parentOf item ++ name :: below ∧ (loaded.findNode name).isSome = true

/-- What is loaded below a node is what another tree has there. -/
def LoadsAs (env : Env) (document : Json) (target : Node) (parent : Location) : Prop :=
  ∃ loaded, loadedBelow env document parent = .ok loaded ∧
    ∀ name child, loaded.findNode name = some child → target.get (parent ++ [name]) = some child

/-- A patch leads from one tree to another one, which is that of the patched document: what it
removes is in the one, what it loads is in the other, below containers that both have, and all
else is the same. -/
structure Reaches (env : Env) (items : List DiffItem) (document : Json) (source target : Node) :
    Prop where
  sourceNames : PlainNames source
  targetNames : PlainNames target
  taken : ∀ xpath, IsRemoved env items source xpath → xpath ∈ xpathsOf source
  unfilled : ∀ item ∈ items, fillValue item document = .ok document
  written : ∀ item ∈ items, item.isRemove = false → XPath.parse item.path ≠ []
  parents : ∀ item ∈ items, item.isRemove = false →
    leftHolds env items source (parentOf item) = some none ∧
      target.holds (parentOf item) = some none
  loads : ∀ item ∈ items, item.isRemove = false → LoadsAs env document target (parentOf item)
  stays : ∀ location, (∀ item ∈ items, ¬ Covers env document item location) →
    leftHolds env items source location = target.holds location

end Intended

section Decide

variable {env : Env} {items : List DiffItem} {document : Json} {source target : Node}

theorem covers_iff {item : DiffItem} {location : Location} :
    Covers env document item location ↔ item.isRemove = false ∧
      parentOf item <+: location ∧
        ∃ loaded ∈ (loadedBelow env document (parentOf item)).toOption,
          ∃ name ∈ (location.drop (parentOf item).length).head?,
            (loaded.findNode name).isSome = true := by
  refine and_congr_right fun _ => ?_
  constructor
  · rintro ⟨loaded, name, below, made, rfl, present⟩
    refine ⟨List.prefix_append _ _, loaded, mem_toOption.mpr made, name, ?_, present⟩
    rw [List.drop_left]
    rfl
  · rintro ⟨⟨rest, rfl⟩, loaded, made, name, first, present⟩
    rw [List.drop_left] at first
    obtain ⟨below, rfl⟩ := List.head?_eq_some_iff.mp first
    exact ⟨loaded, name, below, mem_toOption.mp made, rfl, present⟩

instance (item : DiffItem) (location : Location) : Decidable (Covers env document item location) :=
  decidable_of_iff _ covers_iff.symm

theorem loadsAs_iff {parent : Location} :
    LoadsAs env document target parent ↔ ∃ loaded ∈ (loadedBelow env document parent).toOption,
      ∀ entry ∈ loaded.children, ∀ child ∈ loaded.findNode entry.1,
        target.get (parent ++ [entry.1]) = some child := by
  refine exists_congr fun loaded => and_congr mem_toOption.symm ?_
  constructor
  · exact fun asTarget entry _ child isChild => asTarget entry.1 child isChild
  · exact fun each name child isChild => each (name, child) (Keyed.mem_of_find isChild) child isChild

instance (parent : Location) : Decidable (LoadsAs env document target parent) :=
  decidable_of_iff _ loadsAs_iff.symm

/-- Where neither tree has a node, none is left or to come. -/
theorem stays_iff :
    (∀ location, (∀ item ∈ items, ¬ Covers env document item location) →
      leftHolds env items source location = target.holds location) ↔
    ∀ location ∈ [] :: (source.nodes ++ target.nodes).map Located.location,
      (∀ item ∈ items, ¬ Covers env document item location) →
        leftHolds env items source location = target.holds location := by
  refine ⟨fun all location _ => all location, fun each location uncovered => ?_⟩
  by_cases listed : location ∈ [] :: (source.nodes ++ target.nodes).map Located.location
  · exact each location listed uncovered
  · have absent (root : Node) (isOne : ∀ visited ∈ root.nodes,
        visited ∈ source.nodes ++ target.nodes) : root.holds location = none := by
      rw [← Option.not_isSome_iff_eq_none, Node.isSome_holds_iff]
      intro present
      obtain ⟨node, found⟩ := Option.isSome_iff_exists.mp present
      refine listed (List.mem_cons.mpr (or_iff_not_imp_left.mpr fun below => ?_))
      exact List.mem_map.mpr ⟨⟨location, node⟩, isOne _ (Node.mem_preorder_of_get found below), rfl⟩
    have left : leftHolds env items source location = none := by
      unfold leftHolds
      rw [absent source fun _ member => List.mem_append_left _ member, ite_self]
    rw [left, absent target fun _ member => List.mem_append_right _ member]

theorem taken_iff : (∀ xpath, IsRemoved env items source xpath → xpath ∈ xpathsOf source) ↔
    ∀ xpath ∈ orderablePaths env (removalTree items source),
      IsRemoved env items source xpath → xpath ∈ xpathsOf source :=
  ⟨fun all xpath _ => all xpath,
    fun each xpath removed => each xpath (mem_orderablePaths.mpr removed.2.1) removed⟩

instance : Decidable (Reaches env items document source target) :=
  decidable_of_iff (PlainNames source ∧ PlainNames target ∧
      (∀ xpath ∈ orderablePaths env (removalTree items source),
        IsRemoved env items source xpath → xpath ∈ xpathsOf source) ∧
      (∀ item ∈ items, fillValue item document = .ok document) ∧
      (∀ item ∈ items, item.isRemove = false → XPath.parse item.path ≠ []) ∧
      (∀ item ∈ items, item.isRemove = false →
        leftHolds env items source (parentOf item) = some none ∧
          target.holds (parentOf item) = some none) ∧
      (∀ item ∈ items, item.isRemove = false → LoadsAs env document target (parentOf item)) ∧
      ∀ location ∈ [] :: (source.nodes ++ target.nodes).map Located.location,
        (∀ item ∈ items, ¬ Covers env document item location) →
          leftHolds env items source location = target.holds location)
    ⟨fun ⟨sourceNames, targetNames, taken, unfilled, written, parents, loads, stays⟩ =>
      ⟨sourceNames, targetNames, taken_iff.mpr taken, unfilled, written, parents, loads,
        stays_iff.mpr stays⟩,
      fun reaches => ⟨reaches.sourceNames, reaches.targetNames, taken_iff.mp reaches.taken,
        reaches.unfilled, reaches.written, reaches.parents, reaches.loads,
        stays_iff.mp reaches.stays⟩⟩

end Decide

section Remove

variable {source node : Node} {location : Location}

/-- The node of a plain tree at a path. -/
theorem exists_of_mem_xpathsOf (ordered : source.Ordered) (names : PlainNames source) {xpath : Str}
    (member : xpath ∈ xpathsOf source) :
    ∃ location node, xpath = XPath.toString location ∧ location ≠ [] ∧
      source.get location = some node ∧ PlainLocation location := by
  obtain ⟨visited, isNode, rfl⟩ := List.mem_map.mp member
  obtain ⟨below, found⟩ := (Node.mem_nodes_iff ordered).mp isNode
  exact ⟨visited.location, visited.node, rfl, below, found, names.of_get found⟩

/-- Nodes are taken out one by one, none of which is below one before it. -/
theorem removeNodes_spec {locations : List Location} (ordered : source.Ordered)
    (each : ∀ location ∈ locations, location ≠ [] ∧ PlainLocation location ∧
      (source.get location).isSome = true)
    (apart : locations.Pairwise fun earlier later => ¬ earlier <+: later) :
    ∃ left, removeNodes (locations.map XPath.toString) source = .ok ⟨⟩ left ∧ left.Ordered ∧
      ∀ query, left.holds query =
        if ∃ location ∈ locations, location <+: query then none else source.holds query := by
  induction locations generalizing source with
  | nil =>
      refine ⟨source, rfl, ordered, fun query => ?_⟩
      rw [if_neg (by simp)]
  | cons first rest ih =>
      obtain ⟨⟨below, plain, present⟩, later⟩ := List.forall_mem_cons.mp each
      obtain ⟨apartFirst, apartRest⟩ := List.pairwise_cons.mp apart
      obtain ⟨node, found⟩ := Option.isSome_iff_exists.mp present
      have removed := Node.holds_removeAt ordered below found
      obtain ⟨left, ran, leftOrdered, holds⟩ := ih (ordered.removeAt first) (fun other member => by
        obtain ⟨nonempty, plainOther, there⟩ := later other member
        refine ⟨nonempty, plainOther, ?_⟩
        rw [← Node.isSome_holds_iff, removed, if_neg (apartFirst other member)]
        exact Node.isSome_holds_iff.mpr there) apartRest
      refine ⟨left, ?_, leftOrdered, fun query => ?_⟩
      · refine (forEach_cons_of_ok ?_).trans ran
        rw [get_bind, plain.select below found]
        rfl
      · rw [holds query, removed]
        by_cases inRest : ∃ location ∈ rest, location <+: query
        · obtain ⟨other, member, above⟩ := inRest
          rw [if_pos ⟨other, member, above⟩, if_pos ⟨other, List.mem_cons_of_mem _ member, above⟩]
        · rw [if_neg inRest]
          by_cases here : first <+: query
          · rw [if_pos here, if_pos ⟨first, List.mem_cons_self, here⟩]
          · rw [if_neg here, if_neg]
            rintro ⟨other, member, above⟩
            rcases List.mem_cons.mp member with rfl | inside
            · exact here above
            · exact inRest ⟨other, inside, above⟩

variable {env : Env} {items : List DiffItem} {patch jconfig : Json} {removal : Removal}

/-- The removal leaves what is not at or below a removed node. -/
theorem removeNodes_of_planned (planned : planRemoval env patch jconfig source = .ok removal)
    (parsed : patch.patchItems = .ok items) (ordered : source.Ordered) (names : PlainNames source)
    (taken : ∀ xpath, IsRemoved env items source xpath → xpath ∈ xpathsOf source) :
    ∃ left, removeNodes removal.ordered source = .ok ⟨⟩ left ∧ left.Ordered ∧
      ∀ query, left.holds query = leftHolds env items source query := by
  obtain ⟨once, lowerFirst⟩ := removed_upperLast planned parsed
  have isNode : ∀ xpath ∈ removal.ordered, ∃ location node, xpath = XPath.toString location ∧
      location ≠ [] ∧ source.get location = some node ∧ PlainLocation location :=
    fun xpath member => exists_of_mem_xpathsOf ordered names
      (taken xpath ((mem_removal_iff planned parsed).mp member))
  have reads : ∀ xpath ∈ removal.ordered, XPath.toString (XPath.parse xpath) = xpath := by
    intro xpath member
    obtain ⟨location, node, rfl, _, _, plain⟩ := isNode xpath member
    rw [plain.parse]
  have printed : (removal.ordered.map XPath.parse).map XPath.toString = removal.ordered := by
    rw [List.map_map]
    exact (List.map_congr_left reads).trans (List.map_id _)
  have apart : (removal.ordered.map XPath.parse).Pairwise fun earlier later => ¬ earlier <+: later := by
    rw [List.pairwise_map]
    refine (once.and (List.pairwise_reverse.mp lowerFirst)).imp_of_mem ?_
    intro earlier later first second both above
    obtain ⟨upper, _, rfl, _, _, plainUpper⟩ := isNode earlier first
    obtain ⟨lower, _, rfl, _, _, plainLower⟩ := isNode later second
    rw [plainUpper.parse, plainLower.parse] at above
    exact both.2 (plainUpper.isBelow plainLower above fun same => both.1 (congrArg _ same))
  obtain ⟨left, ran, leftOrdered, holds⟩ := removeNodes_spec ordered (fun location member => by
    obtain ⟨xpath, inside, rfl⟩ := List.mem_map.mp member
    obtain ⟨location, node, rfl, below, found, plain⟩ := isNode xpath inside
    rw [plain.parse, found]
    exact ⟨below, plain, rfl⟩) apart
  rw [printed] at ran
  refine ⟨left, ran, leftOrdered, fun query => (holds query).trans ?_⟩
  have same : (∃ location ∈ removal.ordered.map XPath.parse, location <+: query) ↔
      ∃ visited ∈ source.nodes, visited.location <+: query ∧
        IsRemoved env items source (XPath.toString visited.location) := by
    constructor
    · intro ⟨location, member, above⟩
      obtain ⟨xpath, inside, rfl⟩ := List.mem_map.mp member
      obtain ⟨location, node, rfl, below, found, plain⟩ := isNode xpath inside
      rw [plain.parse] at above
      exact ⟨⟨location, node⟩, (Node.mem_nodes_iff ordered).mpr ⟨below, found⟩, above,
        (mem_removal_iff planned parsed).mp inside⟩
    · intro ⟨visited, member, above, removed⟩
      have plain : PlainLocation visited.location :=
        names.of_get ((Node.mem_nodes_iff ordered).mp member).2
      refine ⟨visited.location, List.mem_map.mpr ⟨_, (mem_removal_iff planned parsed).mpr removed,
        plain.parse⟩, above⟩
  unfold leftHolds
  by_cases upper : ∃ location ∈ removal.ordered.map XPath.parse, location <+: query
  · rw [if_pos upper, if_pos (same.mp upper)]
  · rw [if_neg upper, if_neg fun other => upper (same.mpr other)]

end Remove

section Load

variable {env : Env} {items : List DiffItem} {document : Json} {source target : Node}

/-- How a schema loads: it builds a grounded plan, and keeps the children in order. -/
theorem subnodeLoader_spec {jschema : Json} {load : Json → Loading PUnit}
    (loader : subnodeLoader env jschema = some load) (jconfig : Json) :
    (∃ steps, Performs (load jconfig) ⟨⟩ (PlanStep.buildAll steps) ∧ PlanStep.Grounded [] steps) ∧
      Preserves Node.Ordered (load jconfig) := by
  unfold subnodeLoader at loader
  split at loader
  · cases loader
    exact ⟨⟨_, performs_plan jconfig _, grounded_plan jconfig _⟩, preserves_load jconfig _⟩
  · obtain ⟨patterns, _, rfl⟩ := Option.map_eq_some_iff.mp loader
    exact ⟨⟨_, performs_patternsPlan jconfig _, grounded_patternsPlan jconfig _⟩,
      preserves_loadPatterns jconfig _⟩

/-- Putting a container in place whose children are loaded over those that are there. -/
theorem holds_over {current container loaded after : Node} {parent : Location}
    (found : current.get parent = some container) (composite : container.isLeaf = false)
    (laid : Over container loaded after) (query : Location) :
    (∀ name below child, query = parent ++ name :: below → loaded.findNode name = some child →
      (current.modify (fun _ => after) parent).holds query = child.holds below) ∧
    ((∀ name below, query = parent ++ name :: below → loaded.findNode name = none) →
      (current.modify (fun _ => after) parent).holds query = current.holds query) := by
  have written : (current.modify (fun _ => after) parent).holds query =
      if parent <+: query then after.holds (query.drop parent.length) else current.holds query :=
    Node.holds_modify found query
  constructor
  · rintro name below child rfl isChild
    rw [written, if_pos (List.prefix_append _ _), List.drop_left, Node.holds_cons, laid.children,
      isChild]
    rfl
  · intro absent
    rw [written]
    split
    · next above =>
        obtain ⟨rest, rfl⟩ := above
        rw [List.drop_left, Node.holds_append, found, Option.bind_some]
        cases rest with
        | nil =>
            rw [Node.holds_nil, Node.holds_nil, Node.value?_eq_none_iff.mpr laid.composite,
              Node.value?_eq_none_iff.mpr composite]
        | cons name below =>
            rw [Node.holds_cons, Node.holds_cons, laid.children, absent name below rfl]
            rfl
    · rfl

/-- Loading below a container replaces the children that are loaded, and leaves the others. -/
theorem loadItem_over {item : DiffItem} {current container loaded : Node}
    (written : XPath.parse item.path ≠ []) (sorted : document.Sorted) (ordered : current.Ordered)
    (plain : PlainLocation (parentOf item)) (found : current.get (parentOf item) = some container)
    (composite : container.isLeaf = false)
    (loads : loadedBelow env document (parentOf item) = .ok loaded) :
    ∃ next, loadItem env item document current = .ok document next ∧ next.Ordered ∧
      ∀ query, (∀ name below child, query = parentOf item ++ name :: below →
          loaded.findNode name = some child → next.holds query = child.holds below) ∧
        ((∀ name below, query = parentOf item ++ name :: below → loaded.findNode name = none) →
          next.holds query = current.holds query) := by
  obtain ⟨jschema, looked, loads⟩ := except_bind_eq_ok.mp loads
  split at loads
  · cases loads
  next isSchema =>
  have selected := plain.select_mergeTokens found
  have begins : loadItem env item document current =
      (match subnodeLoader env jschema with
        | none => pure document
        | some load => do
          let pointer ← attempt (Json.Pointer.parse (XPath.mergeTokens (parentOf item)))
          let created ← attempt (document.touched pointer)
          let jnode ← attempt (created.pointed pointer)
          loadInto ⟨parentOf item, container⟩ (load jnode)
          pure created) current := by
    unfold loadItem
    dsimp only
    rw [if_neg written]
    refine (bind_of_ok (attempt_eq_ok.mpr ⟨looked, rfl⟩)).trans ?_
    rw [get_bind, if_neg isSchema]
    rw [show XPath.select current (XPath.mergeTokens (XPath.parse item.path).dropLast) =
      some ⟨parentOf item, container⟩ from selected]
    rfl
  rw [begins]
  cases loader : subnodeLoader env jschema with
  | none =>
      rw [loader] at loads
      cases loads
      refine ⟨current, rfl, ordered, fun query => ⟨?_, fun _ => rfl⟩⟩
      intro _ _ _ _ impossible
      cases impossible
  | some load =>
      rw [loader] at loads
      obtain ⟨pointer, points, loads⟩ := except_bind_eq_ok.mp loads
      obtain ⟨jnode, there, loads⟩ := except_bind_eq_ok.mp loads
      obtain ⟨stays, read⟩ := Json.touched_of_atPointer sorted there
      obtain ⟨⟨steps, performs, grounded⟩, preserves⟩ := subnodeLoader_spec loader jnode
      have fresh : load jnode .empty = .ok ⟨⟩ loaded := by
        split at loads
        · next ran =>
            cases loads
            exact ran
        · cases loads
      obtain ⟨after, ran, laid⟩ := runs_over performs grounded composite fresh
      have afterOrdered : after.Ordered := by
        have kept := preserves container (ordered.get found)
        rw [ran] at kept
        exact kept
      have inside : loadInto ⟨parentOf item, container⟩ (load jnode) current =
          .ok ⟨⟩ (current.modify (fun _ => after) (parentOf item)) := by
        have isComposite : ¬ container.isLeaf = true :=
          fun leaf => Bool.false_ne_true (composite.symm.trans leaf)
        refine (congrFun (if_neg isComposite) current).trans (focus_eq_ok.mpr ⟨after, ?_, rfl⟩)
        dsimp only
        rw [found]
        exact ran
      refine ⟨current.modify (fun _ => after) (parentOf item), ?_, ?_, holds_over found composite laid⟩
      · dsimp only
        rw [bind_of_ok (attempt_eq_ok.mpr ⟨points, rfl⟩), bind_of_ok (attempt_eq_ok.mpr ⟨stays, rfl⟩),
          bind_of_ok (attempt_eq_ok.mpr ⟨read, rfl⟩), bind_of_ok inside]
        rfl
      · exact ordered.modify (fun _ _ => afterOrdered) _

end Load

section Reach

variable {env : Env} {items : List DiffItem} {document : Json} {source target : Node}

/-- Looking up the removed nodes adds nothing to a document to which no operation adds anything. -/
theorem scanRemovals_document {scan after : Scan}
    (unfilled : ∀ item ∈ items, fillValue item scan.jsonConfig = .ok scan.jsonConfig)
    (scanned : scanRemovals source items scan = .ok after) : after.jsonConfig = scan.jsonConfig := by
  induction items generalizing scan with
  | nil =>
      cases scanned
      rfl
  | cons item rest ih =>
      obtain ⟨here, later⟩ := List.forall_mem_cons.mp unfilled
      obtain ⟨filled, lookedUp, scanned⟩ := except_bind_eq_ok.mp scanned
      cases here.symm.trans lookedUp
      split at scanned
      · exact ih later scanned
      split at scanned
      · cases scanned
      split at scanned
      · cases scanned
      · next node _ =>
          have rest := @ih ⟨scan.jsonConfig, scan.pathNodes ++ pathNodesOf (XPath.parse item.path),
            scan.subnodes ++ getSubnodesXPath node ++ [item.path]⟩ later scanned
          exact rest

/-- The document that the removal hands on is the patched one. -/
theorem planRemoval_document {patch jconfig : Json} {removal : Removal}
    (planned : planRemoval env patch jconfig source = .ok removal)
    (parsed : patch.patchItems = .ok items) (patched : patchConfig env patch jconfig = .ok document)
    (unfilled : ∀ item ∈ items, fillValue item document = .ok document) :
    removal.jsonConfig = document := by
  obtain ⟨json, applied, planned⟩ := except_bind_eq_ok.mp planned
  cases patched.symm.trans applied
  obtain ⟨others, reads, planned⟩ := except_bind_eq_ok.mp planned
  cases parsed.symm.trans reads
  obtain ⟨scan, scanned, planned⟩ := except_bind_eq_ok.mp planned
  dsimp only at planned
  split at planned
  · obtain ⟨ordered, _, planned⟩ := except_bind_eq_ok.mp planned
    obtain ⟨_, _, finished⟩ := except_bind_eq_ok.mp planned
    cases finished
    exact scanRemovals_document unfilled scanned
  · cases planned

/-- A tree on the way from one to another: where one of the given operations loads something it is
as the other tree, and elsewhere as what is left of the one. -/
structure Between (env : Env) (items : List DiffItem) (document : Json) (source target : Node)
    (done : List DiffItem) (current : Node) : Prop where
  ordered : current.Ordered
  loaded : ∀ query, (∃ item ∈ done, Covers env document item query) →
    current.holds query = target.holds query
  left : ∀ query, (¬ ∃ item ∈ done, Covers env document item query) →
    current.holds query = leftHolds env items source query

variable {done : List DiffItem} {current : Node}

theorem Between.container (between : Between env items document source target done current)
    {location : Location} (left : leftHolds env items source location = some none)
    (there : target.holds location = some none) :
    ∃ container, current.get location = some container ∧ container.isLeaf = false := by
  have holds : current.holds location = some none := by
    by_cases covered : ∃ item ∈ done, Covers env document item location
    · exact (between.loaded location covered).trans there
    · exact (between.left location covered).trans left
  obtain ⟨container, found, value⟩ := Option.map_eq_some_iff.mp holds
  exact ⟨container, found, Node.value?_eq_none_iff.mp value⟩

/-- Loading the nodes of one more operation. -/
theorem Between.load (between : Between env items document source target done current)
    {item : DiffItem} (writes : item.isRemove = false) (written : XPath.parse item.path ≠ [])
    (sorted : document.Sorted) (plain : PlainLocation (parentOf item))
    (left : leftHolds env items source (parentOf item) = some none)
    (there : target.holds (parentOf item) = some none)
    (loads : LoadsAs env document target (parentOf item)) :
    ∃ next, loadItem env item document current = .ok document next ∧
      Between env items document source target (done ++ [item]) next := by
  obtain ⟨container, found, composite⟩ := between.container left there
  obtain ⟨loaded, made, asTarget⟩ := loads
  obtain ⟨next, ran, ordered, holds⟩ :=
    loadItem_over written sorted between.ordered plain found composite made
  have once (query : Location) (covered : ¬ Covers env document item query) :
      next.holds query = current.holds query := by
    refine (holds query).2 fun name below located => ?_
    by_contra present
    exact covered ⟨writes, loaded, name, below, made, located,
      Option.isSome_iff_ne_none.mpr present⟩
  have either (query : Location) : (∃ other ∈ done ++ [item], Covers env document other query) ↔
      (∃ other ∈ done, Covers env document other query) ∨ Covers env document item query := by
    simp only [List.mem_append, List.mem_singleton, or_and_right, exists_or, exists_eq_left]
  refine ⟨next, ran, ordered, fun query covered => ?_, fun query uncovered => ?_⟩
  · by_cases here : Covers env document item query
    · obtain ⟨_, other, name, below, same, located, present⟩ := here
      cases made.symm.trans same
      obtain ⟨child, isChild⟩ := Option.isSome_iff_exists.mp present
      have inTarget : target.get (parentOf item ++ [name]) = some child := asTarget name child isChild
      rw [(holds query).1 name below child located isChild, located, List.append_cons,
        Node.holds_append, inTarget]
      rfl
    · rw [once query here]
      exact between.loaded query (((either query).mp covered).resolve_right here)
  · rw [either, not_or] at uncovered
    rw [once query uncovered.2]
    exact between.left query uncovered.1

/-- Loading the nodes of the remaining operations. -/
theorem Between.loadAdded (reaches : Reaches env items document source target)
    (sorted : document.Sorted) {rest : List DiffItem} (included : ∀ item ∈ rest, item ∈ items)
    (between : Between env items document source target done current) :
    ∃ last, loadAdded env rest document current = .ok document last ∧
      Between env items document source target (done ++ rest) last := by
  induction rest generalizing done current with
  | nil =>
      rw [List.append_nil]
      exact ⟨current, rfl, between⟩
  | cons item others ih =>
      obtain ⟨here, later⟩ := List.forall_mem_cons.mp included
      have filled : attempt (fillValue item document) current = .ok document current :=
        attempt_eq_ok.mpr ⟨reaches.unfilled item here, rfl⟩
      have goesOn : ∀ next, Between env items document source target (done ++ [item]) next →
          ∃ last, FlexConfig.loadAdded env others document next = .ok document last ∧
            Between env items document source target (done ++ item :: others) last := by
        intro next step
        have result := ih later step
        rw [List.append_assoc] at result
        exact result
      rw [FlexConfig.loadAdded, bind_of_ok filled]
      cases removes : item.isRemove with
      | true =>
          rw [if_pos rfl]
          have never (query : Location) : ¬ Covers env document item query := fun covered =>
            Bool.false_ne_true (covered.1.symm.trans removes)
          have same (query : Location) :
              (∃ other ∈ done ++ [item], Covers env document other query) ↔
                ∃ other ∈ done, Covers env document other query := by
            simp only [List.mem_append, List.mem_singleton, or_and_right, exists_or, exists_eq_left,
              never, or_false]
          exact goesOn current ⟨between.ordered,
            fun query covered => between.loaded query ((same query).mp covered),
            fun query uncovered => between.left query fun covered =>
              uncovered ((same query).mpr covered)⟩
      | false =>
          rw [if_neg Bool.false_ne_true]
          obtain ⟨left, there⟩ := reaches.parents item here removes
          obtain ⟨container, found, _⟩ := Option.map_eq_some_iff.mp there
          obtain ⟨next, ran, step⟩ := between.load removes (reaches.written item here removes) sorted
            (reaches.targetNames.of_get found) left there (reaches.loads item here removes)
          rw [bind_of_ok ran]
          exact goesOn next step

/-- A patch that leads to the tree of its document makes the routine end up with that tree. -/
theorem editNodes_of_reaches {patch jconfig : Json} {removal : Removal}
    (planned : planRemoval env patch jconfig source = .ok removal)
    (parsed : patch.patchItems = .ok items) (patched : patchConfig env patch jconfig = .ok document)
    (sorted : document.Sorted) (sourceOrdered : source.Ordered) (targetOrdered : target.Ordered)
    (reaches : Reaches env items document source target) :
    editNodes env items removal source = .ok document target := by
  have same := planRemoval_document planned parsed patched reaches.unfilled
  obtain ⟨left, ran, leftOrdered, holds⟩ := removeNodes_of_planned planned parsed sourceOrdered
    reaches.sourceNames reaches.taken
  have begins : Between env items document source target [] left := by
    refine ⟨leftOrdered, fun query covered => ?_, fun query _ => holds query⟩
    obtain ⟨_, impossible, _⟩ := covered
    cases impossible
  obtain ⟨last, loaded, between⟩ :=
    begins.loadAdded reaches sorted fun _ member => member
  have ends : last = target := by
    refine Node.eq_of_holds between.ordered targetOrdered fun query => ?_
    by_cases covered : ∃ item ∈ items, Covers env document item query
    · exact between.loaded query covered
    · refine (between.left query covered).trans (reaches.stays query fun item member inside => ?_)
      exact covered ⟨item, member, inside⟩
  unfold editNodes
  rw [bind_of_ok ran, same, loaded, ends]

end Reach

section Leads

/-- A patch of a document, read as operations, leads from one tree to another one. -/
structure Leads (env : Env) (patch jconfig : Json) (source : Node) (items : List DiffItem)
    (document : Json) (target : Node) : Prop where
  parsed : patch.patchItems = .ok items
  patched : patchConfig env patch jconfig = .ok document
  sorted : document.Sorted
  inOrder : target.Ordered
  reaches : Reaches env items document source target

instance (env : Env) (patch jconfig : Json) (source : Node) (items : List DiffItem)
    (document : Json) (target : Node) :
    Decidable (Leads env patch jconfig source items document target) :=
  decidable_of_iff (patch.patchItems = .ok items ∧ patchConfig env patch jconfig = .ok document ∧
      document.Sorted ∧ target.Ordered ∧ Reaches env items document source target)
    ⟨fun ⟨parsed, patched, sorted, inOrder, reaches⟩ =>
        ⟨parsed, patched, sorted, inOrder, reaches⟩,
      fun ⟨parsed, patched, sorted, inOrder, reaches⟩ =>
        ⟨parsed, patched, sorted, inOrder, reaches⟩⟩

variable {env : Env} {site : Site} {patch jconfig document : Json} {before : Draft}
  {items : List DiffItem} {target : Node}

/-- What the routine has computed where the patch leads to a tree. -/
theorem Leads.prepared (leads : Leads env patch jconfig before.nodeConfig items document target)
    (ordered : before.nodeConfig.Ordered) {listed : List DiffItem} {removal : Removal}
    {index : References} (begun : Begun env patch jconfig before listed removal index) :
    listed = items ∧ editNodes env items removal before.nodeConfig = .ok document target := by
  cases leads.parsed.symm.trans begun.parsed
  exact ⟨rfl, editNodes_of_reaches begun.planned leads.parsed leads.patched leads.sorted ordered
    leads.inOrder leads.reaches⟩

/-- A patch leads to one tree only, once the routine has begun. -/
theorem Leads.unique {other : Node} {document' : Json}
    (leads : Leads env patch jconfig before.nodeConfig items document target)
    (leads' : Leads env patch jconfig before.nodeConfig items document' other)
    (ordered : before.nodeConfig.Ordered) {removal : Removal} {index : References}
    (begun : Begun env patch jconfig before items removal index) :
    document' = document ∧ other = target := by
  obtain ⟨_, edits⟩ := leads.prepared ordered begun
  obtain ⟨_, edits'⟩ := leads'.prepared ordered begun
  cases edits.symm.trans edits'
  exact ⟨rfl, rfl⟩

/-- The course of a routine whose patch leads to a tree goes there. -/
theorem Leads.course (leads : Leads env patch jconfig before.nodeConfig items document target)
    (ordered : before.nodeConfig.Ordered) (course : Course env site patch jconfig before) :
    course.items = items ∧ course.json_config = document ∧ course.edited = target := by
  obtain ⟨listed, edits⟩ := leads.prepared ordered course.begun
  have edited := course.prepared.edits
  rw [listed] at edited
  cases edits.symm.trans edited
  exact ⟨listed, rfl, rfl⟩

end Leads

section Trees

variable {env : Env}

theorem preserves_removeNodes (xpaths : List Str) :
    Preserves Node.Ordered (removeNodes xpaths) := by
  refine preserves_forEach fun xpath node ordered => ?_
  rw [get_bind]
  cases XPath.select node xpath with
  | none => exact ordered
  | some found => exact ordered.removeAt found.location

theorem preserves_loadInto {root_node : Located} {body : Loading PUnit}
    (preserves : Preserves Node.Ordered body) :
    Preserves Node.Ordered (loadInto root_node body) := by
  by_cases leaf : root_node.node.isLeaf = true
  · intro node ordered
    have kept : final (loadInto root_node body node) = node := by
      refine (congrArg final (congrFun (if_pos leaf) node)).trans ?_
      split <;> split <;> rfl
    rw [kept]
    exact ordered
  · have focused : loadInto root_node body = focus
        (fun node_config => (node_config.get root_node.location).getD .empty)
        (fun loaded node_config => node_config.modify (fun _ => loaded) root_node.location) body :=
      if_neg leaf
    rw [focused]
    refine preserves_focus preserves (fun node ordered => ?_) fun inner node loaded ordered =>
      ordered.modify (fun _ _ => loaded) _
    cases found : node.get root_node.location with
    | none => exact Node.ordered_empty
    | some child => exact ordered.get found

theorem preserves_loadItem (item : DiffItem) (json_config : Json) :
    Preserves Node.Ordered (loadItem env item json_config) := by
  unfold loadItem
  dsimp only
  split
  · exact preserves_throw _
  · refine (preserves_attempt _).bind fun jschema node ordered => ?_
    rw [get_bind]
    split
    · exact ordered
    cases XPath.select node (XPath.mergeTokens (XPath.parse item.path).dropLast) with
    | none => exact ordered
    | some root_node =>
        dsimp only
        cases loader : subnodeLoader env jschema with
        | none => exact ordered
        | some load =>
            refine Preserves.bind (preserves_attempt _) (fun pointer => ?_) node ordered
            refine (preserves_attempt _).bind fun created => ?_
            refine (preserves_attempt _).bind fun jnode => ?_
            refine (preserves_loadInto (subnodeLoader_spec loader jnode).2).bind fun _ => ?_
            exact preserves_pure _

theorem preserves_loadAdded (items : List DiffItem) (json_config : Json) :
    Preserves Node.Ordered (loadAdded env items json_config) := by
  induction items generalizing json_config with
  | nil => exact preserves_pure _
  | cons item rest ih =>
      rw [loadAdded]
      refine (preserves_attempt _).bind fun filled => ?_
      split
      · exact ih filled
      · exact (preserves_loadItem item filled).bind fun loaded => ih loaded

/-- The edit keeps the children in order, however it ends. -/
theorem preserves_editNodes (items : List DiffItem) (removal : Removal) :
    Preserves Node.Ordered (editNodes env items removal) :=
  (preserves_removeNodes removal.ordered).bind fun _ => preserves_loadAdded items removal.jsonConfig

/-- What a map keeps in order in a draft: the children of every composite, and the index. -/
structure Draft.Ordered (draft : Draft) : Prop where
  nodeConfig : draft.nodeConfig.Ordered
  references : draft.references.Canonical

theorem ordered_of_routine {site : Site} {patch jconfig : Json} {before : Draft}
    (ordered : before.Ordered) :
    (final (fMakeCandidateConfigInternal env site patch jconfig before)).Ordered := by
  cases ran : fMakeCandidateConfigInternal env site patch jconfig before with
  | ok json_config after =>
      obtain ⟨course, _, rfl⟩ := Course.routine_eq_ok_iff.mp ran
      have kept : (final (editNodes env course.items course.removal
          before.nodeConfig)).Ordered := preserves_editNodes _ _ _ ordered.nodeConfig
      rw [course.prepared.edits] at kept
      obtain ⟨_, _, _, _, saves⟩ := prepared_ordered course.prepared
      exact ⟨kept, (ordered.references.remove course.begun.unreferenced).save saves⟩
  | error reason after =>
      rcases begun_or_unwritten env site patch jconfig before with
        ⟨cause, unwritten⟩ | ⟨items, removal, index, begun⟩
      · cases ran.symm.trans unwritten
        exact ordered
      have removed := ordered.references.remove begun.unreferenced
      rcases routine_eq_error begun ran with ⟨log, _, rfl⟩ | ⟨log, cause, between, _, updated, ending⟩
      · exact ⟨ordered.nodeConfig, removed⟩
      have edited : between.nodeConfig.Ordered := by
        rw [performUpdate_error_nodeConfig updated]
        exact preserves_editNodes items removal _ ordered.nodeConfig
      have references : between.references.Canonical := by
        rcases performUpdate_eq_error.mp updated with ⟨_, _, rfl⟩ | ⟨_, _, _, _, rfl⟩ |
          ⟨json, other, nodes, saved, rest, prepared, _, rfl⟩
        · exact removed
        · exact removed
        · obtain ⟨_, _, _, _, saves⟩ := prepared_ordered prepared
          exact removed.save saves
      rcases ending with ⟨_, _, rfl⟩ | ⟨_, rest, rfl, _⟩
      · exact ⟨edited, references⟩
      · exact ⟨edited, references⟩

/-- What maps keep in order in the manager: the children of every composite of its trees, and its
index. -/
structure MapsOrdered (manager : Manager) : Prop where
  running : ∀ tree, manager.runningConfig = some tree → tree.Ordered
  candidate : ∀ tree, manager.candidateConfig = some tree → tree.Ordered
  references : manager.candidateReferences.Canonical

variable {before after : Manager}

/-- A copy has its children in order. -/
theorem ordered_copy {root : Node} (ordered : root.Ordered) : (getNodeConfigCopy root).Ordered := by
  rw [getNodeConfigCopy_eq]
  refine ⟨Keyed.pairwise_keys_insertAll .nil, Node.orderedChildren_iff.mpr fun entry member => ?_⟩
  rcases Keyed.mem_of_mem_insertAll member with added | impossible
  · obtain ⟨visited, inside, rfl⟩ := List.mem_map.mp added
    exact ordered.get ((Node.mem_nodes_iff ordered).mp (List.mem_of_mem_filter inside)).2
  · cases impossible

theorem MapsOrdered.root (maps : MapsOrdered before) {patch : Json} {root : Node}
    (admitted : Manager.Admitted env before patch root) : root.Ordered := by
  obtain ⟨tree, running, rfl⟩ := admitted.running
  exact ordered_copy (maps.running tree running)

theorem reload_canonical {jconfig : Json} {index : References} {reloaded : Node × References}
    (canonical : index.Canonical) (reload : fReloadNodeConfig env jconfig index = .ok reloaded) :
    reloaded.1.Ordered ∧ reloaded.2.Canonical := by
  obtain ⟨_, _, _, _, built, _, saves⟩ := Manager.reload_eq_ok.mp reload
  exact ⟨ordered_of_buildTree built, canonical.save saves⟩

theorem mapsOrdered_of_make {patch : Json} (maps : MapsOrdered before) :
    MapsOrdered (final (Manager.makeCandidateConfig env patch before)) := by
  by_cases admitted : ∃ root, Manager.Admitted env before patch root
  · obtain ⟨root, admitted⟩ := admitted
    have begins : (before.runningDraft root).Ordered := ⟨maps.root admitted, maps.references⟩
    have kept : (final (fMakeCandidateConfigInternal env before.site patch before.runningJson
        (before.runningDraft root))).Ordered := ordered_of_routine begins
    rw [Manager.make_of_admitted admitted]
    cases ran : fMakeCandidateConfigInternal env before.site patch before.runningJson
        (before.runningDraft root) with
    | error reason draft =>
        rw [ran] at kept
        exact ⟨maps.running, maps.candidate, kept.references⟩
    | ok json_config draft =>
        rw [ran] at kept
        dsimp only
        cases reload : fReloadNodeConfig env json_config draft.references with
        | error reason => exact ⟨maps.running, maps.candidate, kept.references⟩
        | ok reloaded =>
            obtain ⟨ordered, canonical⟩ := reload_canonical kept.references reload
            exact ⟨maps.running, fun tree same => Option.some.inj same ▸ ordered, canonical⟩
  · obtain ⟨reason, unchanged⟩ := Manager.make_of_not_admitted admitted
    rw [unchanged]
    exact maps

theorem mapsOrdered_of_cancel (maps : MapsOrdered before) :
    MapsOrdered (final (Manager.cancelCandidateConfig env before)) := by
  by_cases cancellable : ∃ patch jconfig tree, Manager.Cancellable env before patch jconfig tree
  · obtain ⟨patch, jconfig, tree, cancellable⟩ := cancellable
    have begins : (before.runningDraft tree).Ordered :=
      ⟨maps.candidate tree cancellable.candidate, maps.references⟩
    have kept : (final (fMakeCandidateConfigInternal env before.site patch jconfig
        (before.runningDraft tree))).Ordered := ordered_of_routine begins
    rw [Manager.cancel_of_cancellable cancellable]
    cases ran : fMakeCandidateConfigInternal env before.site patch jconfig
        (before.runningDraft tree) with
    | ok json_config draft =>
        rw [ran] at kept
        exact ⟨maps.running, nofun, kept.references⟩
    | error reason draft =>
        rw [ran] at kept
        have edited : ∀ tree, some draft.nodeConfig = some tree → tree.Ordered :=
          fun tree same => Option.some.inj same ▸ kept.nodeConfig
        cases reason with
        | rejected => exact ⟨maps.running, edited, maps.references⟩
        | raised | exited | crashed => exact ⟨maps.running, edited, kept.references⟩
  · obtain ⟨reason, halted⟩ := Manager.cancel_of_not_cancellable cancellable
    rw [halted]
    exact maps

theorem mapsOrdered_of_step {op : Manager.Op} (maps : MapsOrdered before)
    (step : Manager.Step env before op after) : MapsOrdered after := by
  obtain ⟨_, rfl⟩ := step
  cases op with
  | makeCandidateConfig patch => exact mapsOrdered_of_make maps
  | applyCandidateConfig files =>
      change MapsOrdered (final (Manager.applyCandidateConfig files before))
      rcases Manager.apply_cases files before with ⟨reason, halted⟩ | ⟨_, _, applied⟩
      · rw [halted]
        exact maps
      · rw [applied]
        exact ⟨maps.candidate, nofun, maps.references⟩
  | cancelCandidateConfig => exact mapsOrdered_of_cancel maps

theorem mapsOrdered_of_loaded {first : Manager} (loaded : Manager.Loaded env first) :
    MapsOrdered first := by
  obtain ⟨jconfig, log, loaded⟩ := loaded
  obtain ⟨reloaded, reload, rfl⟩ := Manager.loaded_eq loaded
  obtain ⟨ordered, canonical⟩ := reload_canonical canonical_nil reload
  exact ⟨fun tree same => Option.some.inj same ▸ ordered, nofun, canonical⟩

/-- Wherever calls have led to, the trees and the index are in order. -/
theorem mapsOrdered_of_reached {last : Manager} {guard : Manager → Manager.Op → Prop}
    (reached : Manager.ReachedBy env guard last) : MapsOrdered last := by
  obtain ⟨first, loaded, run⟩ := reached
  exact invariant_of_run MapsOrdered (fun _ _ _ maps _ step => mapsOrdered_of_step maps step)
    (mapsOrdered_of_loaded loaded) run

end Trees

end FlexConfig
