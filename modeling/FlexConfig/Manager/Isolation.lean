import FlexConfig.Manager.Candidate
import FlexConfig.Tree.Copy
import FlexConfig.Tree.Edits

/-! # A copy is isolated

The copy of a stored tree is the one that is made of the tree of values
(`getNodeConfigCopyStored_refines`). After the copy maker went through a tree, the tree and its copy
are as the tree was before, and what is done to the copy leaves the tree as it is. The one exception
is what is in an inner container that bears the name of the root (`getNodeConfigCopy_isolated_iff`).
-/

namespace FlexConfig

open Heap XPath Placed NodeCopyMakerVisitor

section Isolation

/-- Wherever the traversal meets a container of the name of the root, the node it meets last under
a name is as the root's own child of that name. -/
def CopiesRoot (root : Node) : Prop :=
  ∀ name node, Keyed.lastValue name (rootward root.nodes) = some node →
    root.findNode name = some node

/-- The source and the copy are as the source was, consistent and apart, and whatever is done to
the copy leaves the source as it is. -/
structure Isolated (root : Placed) (result : Ref × Store) (source copy : Placed) : Prop where
  source_address : source.address = root.address
  copy_address : copy.address = result.1
  source_stored : Stored result.2 ROOT_TREE_CONFIG_NAME none source
  copy_stored : Stored result.2 ROOT_TREE_CONFIG_NAME none copy
  source_shape : source.shape = root.shape
  copy_shape : copy.shape = root.shape
  disjoint : ∀ address ∈ source.footprint, address ∉ copy.footprint
  edits : ∀ last, Edits copy.footprint result.2 last →
    ∀ address ∈ source.footprint, last[address]? = result.2[address]?

variable {store : Store} {fuel : Nat}

/-- The copy of a tree of values has the children that were put into it, the later ones in place of
the earlier. -/
theorem foldl_visit_eq (nodes : List Located) (entries : List (Str × Node)) :
    nodes.foldl (fun root_config visited => (NodeCopyMaker.visit root_config visited).2)
        (.composite entries) = .composite (Keyed.insertAll (rootward nodes) entries) := by
  induction nodes generalizing entries with
  | nil => rfl
  | cons visited rest ih =>
      rw [List.foldl_cons, rootward, List.filter_cons]
      by_cases root : InNamedRoot visited
      · have added : (NodeCopyMaker.visit (.composite entries) visited).2 =
            .composite (Keyed.insert (nameOf visited.location) visited.node entries) := if_pos root
        rw [if_pos (decide_eq_true root), added, ih]
        rfl
      · have left : (NodeCopyMaker.visit (.composite entries) visited).2 = .composite entries :=
          if_neg root
        rw [if_neg fun kept => root (of_decide_eq_true kept), left, ih]
        rfl

theorem getNodeConfigCopy_eq (root : Node) :
    getNodeConfigCopy root = .composite (Keyed.insertAll (rootward root.nodes) []) := by
  rw [getNodeConfigCopy, Node.accept_eq_foldl fun _ _ => rfl]
  exact foldl_visit_eq root.nodes []

/-- The copy of a stored tree is made, whatever the names: the tree keeps its place and its shape,
and the copy is that of the tree of values. -/
theorem getNodeConfigCopyStored_refines {root : Placed}
    (stored : Stored store ROOT_TREE_CONFIG_NAME none root) (enough : root.size ≤ fuel) :
    ∃ next source copy, getNodeConfigCopyStored fuel root.address store = some (store.length, next) ∧
      source.address = root.address ∧ copy.address = store.length ∧
      Stored next ROOT_TREE_CONFIG_NAME none source ∧ Stored next ROOT_TREE_CONFIG_NAME none copy ∧
      source.shape = root.shape ∧ copy.shape = getNodeConfigCopy root.shape := by
  let made : Store := store ++ [⟨ROOT_TREE_CONFIG_NAME, none, none, .composite []⟩]
  have read : made[store.length]? = some ⟨ROOT_TREE_CONFIG_NAME, none, none, .composite []⟩ :=
    List.getElem?_concat_length
  have storedMade : Stored made ROOT_TREE_CONFIG_NAME none root :=
    stored.kept (Frame.append store _) root fun _ _ => List.not_mem_nil
  have apart : store.length ∉ root.footprint := fun member =>
    lt_irrefl _ (stored.lt_length root _ member)
  have atTop : ROOT_TREE_CONFIG_NAME = nameOf [] := rfl
  obtain ⟨next, source, added, ran, sameAddress, replaced, carried⟩ :=
    accept_spec root storedMade atTop enough enough stored.nodup_footprint apart ⟨_, _, read, rfl⟩
  have readNext := carried.read _ _ read rfl
  let copy : Placed := .composite store.length (Keyed.insertAll added [])
  have links : Keyed.mapValues address (Keyed.insertAll added []) =
      Keyed.insertAll (Keyed.mapValues address added) [] := Keyed.mapValues_insertAll address added []
  have storedCopy : Stored next ROOT_TREE_CONFIG_NAME none copy := by
    refine ⟨⟨none, ?_⟩, Keyed.pairwise_keys_insertAll List.Pairwise.nil, ?_⟩
    · rw [links]
      exact readNext
    · refine storedChildren_iff.mpr fun entry member => ?_
      rcases Keyed.mem_of_mem_insertAll member with inAdded | impossible
      · exact storedChildren_iff.mp carried.stored entry inAdded
      · cases impossible
  refine ⟨next, source, copy, ?_, sameAddress, rfl, replaced.stored, storedCopy, replaced.shape, ?_⟩
  · rw [getNodeConfigCopyStored, ran]
    rfl
  · have inner : shapes (Keyed.insertAll added []) =
        Keyed.insertAll (rootward root.shape.nodes) [] := by
      rw [shapes_eq, Keyed.mapValues_insertAll, ← shapes_eq, carried.shape]
      rfl
    rw [getNodeConfigCopy_eq]
    exact congrArg Node.composite inner

/-- Every child of the root is met in a container of the name of the root. -/
theorem mem_rootward_of_child {children : List (Str × Node)} {entry : Str × Node}
    (member : entry ∈ children) : entry ∈ rootward (Node.composite children).nodes := by
  refine List.mem_map.mpr ⟨⟨[entry.1], entry.2⟩, List.mem_filter.mpr ⟨?_, decide_eq_true rfl⟩, rfl⟩
  exact Node.mem_preorderChildren member

/-- The copy has the children of the root where the last ones win. -/
theorem insertAll_rootward_iff {children : List (Str × Node)}
    (sorted : (Keyed.keys children).Pairwise (· < ·)) :
    Keyed.insertAll (rootward (Node.composite children).nodes) [] = children ↔
      CopiesRoot (.composite children) := by
  constructor
  · intro same name node last
    rw [← Keyed.find_insertAll, same] at last
    exact last
  · intro copies
    refine Keyed.eq_of_find (Keyed.pairwise_keys_insertAll List.Pairwise.nil) sorted fun name => ?_
    rw [Keyed.find_insertAll]
    cases last : Keyed.lastValue name (rootward (Node.composite children).nodes) with
    | some node => exact (copies name node last).symm
    | none =>
        refine (Keyed.find_eq_none_iff.mpr fun taken => ?_).symm
        obtain ⟨entry, member, rfl⟩ := List.mem_map.mp taken
        refine Keyed.find_eq_none_iff.mp last (List.mem_map_of_mem (List.mem_reverse.mpr ?_))
        exact mem_rootward_of_child member

variable {address : Ref} {children : List (Str × Placed)}
  (stored : Stored store ROOT_TREE_CONFIG_NAME none (.composite address children))
  (enough : (Placed.composite address children).size ≤ fuel)

include stored enough

theorem copiesRoot_of_isolated {source copy : Placed} {result : Ref × Store}
    (ran : getNodeConfigCopyStored fuel address store = some result)
    (isolated : Isolated (.composite address children) result source copy) :
    CopiesRoot (Placed.composite address children).shape := by
  obtain ⟨next, _, made, copied, _, atEnd, _, storedMade, _, shaped⟩ :=
    getNodeConfigCopyStored_refines stored enough
  cases ran.symm.trans copied
  have same : copy = made :=
    isolated.copy_stored.unique copy made storedMade (isolated.copy_address.trans atEnd.symm)
  rw [getNodeConfigCopy_eq, ← same, isolated.copy_shape] at shaped
  exact (insertAll_rootward_iff stored.sorted_shapes).mp (Node.composite.inj shaped).symm

theorem isolated_of_copiesRoot (copies : CopiesRoot (Placed.composite address children).shape) :
    ∃ result source copy, getNodeConfigCopyStored fuel address store = some result ∧
      Isolated (.composite address children) result source copy := by
  obtain ⟨next, source, copy, copied, sameAddress, atEnd, storedSource, storedCopy, sameShape, shaped⟩ :=
    getNodeConfigCopyStored_refines stored enough
  have old : address < store.length := stored.lt_length _ address List.mem_cons_self
  have differ : source.address ≠ copy.address := by
    rw [sameAddress, atEnd]
    exact old.ne
  have disjoint := storedSource.disjoint storedCopy differ
  refine ⟨_, source, copy, copied, sameAddress, atEnd, storedSource, storedCopy, sameShape, ?_,
    disjoint, fun last edits inside member => ?_⟩
  · rw [shaped, getNodeConfigCopy_eq]
    exact congrArg Node.composite ((insertAll_rootward_iff stored.sorted_shapes).mpr copies)
  · have frame := edits.frame (storedCopy.closed copy)
    exact frame.kept inside (storedSource.lt_length source inside member) (disjoint inside member)

end Isolation

/-- The copy of a tree is isolated from it exactly where, of the nodes that are in a container
bearing the name of the root, the last one of each name is as the root's own child. -/
theorem getNodeConfigCopy_isolated_iff {store : Store} {address : Ref}
    {children : List (Str × Placed)}
    (stored : Stored store ROOT_TREE_CONFIG_NAME none (.composite address children)) {fuel : Nat}
    (enough : (Placed.composite address children).size ≤ fuel) :
    (∃ result source copy, getNodeConfigCopyStored fuel address store = some result ∧
      Isolated (.composite address children) result source copy) ↔
      CopiesRoot (Placed.composite address children).shape :=
  ⟨fun ⟨_, _, _, ran, isolated⟩ => copiesRoot_of_isolated stored enough ran isolated,
    isolated_of_copiesRoot stored enough⟩

section Plain

/-- No container below the root bears the name of the root. -/
def PlainContainers (nodes : List Located) : Prop :=
  ∀ visited ∈ nodes, nameOf visited.location = ROOT_TREE_CONFIG_NAME → visited.node.children = []

mutual

theorem rootward_preorder_eq_nil : ∀ (location : Location) (node : Node),
    (nameOf location = ROOT_TREE_CONFIG_NAME → node.children = []) →
      PlainContainers (node.preorder location) → rootward (node.preorder location) = []
  | _, .leaf _, _, _ => rfl
  | location, .composite entries, top, plain => by
      by_cases root : nameOf location = ROOT_TREE_CONFIG_NAME
      · have none : entries = [] := top root
        rw [none]
        rfl
      · exact rootward_preorderChildren_eq_nil location entries root plain

theorem rootward_preorderChildren_eq_nil : ∀ (location : Location) (entries : List (Str × Node)),
    nameOf location ≠ ROOT_TREE_CONFIG_NAME →
      PlainContainers (Node.preorderChildren location entries) →
        rootward (Node.preorderChildren location entries) = []
  | _, [], _, _ => rfl
  | location, (name, child) :: rest, other, plain => by
      obtain ⟨here, plainRest⟩ := List.forall_mem_append.mp plain
      obtain ⟨top, below⟩ := List.forall_mem_cons.mp here
      rw [Node.preorderChildren, rootward_append, rootward_cons_of_ne name child _ other,
        rootward_preorder_eq_nil (location ++ [name]) child top below,
        rootward_preorderChildren_eq_nil location rest other plainRest]
      rfl

end

theorem rootward_eq_children {entries : List (Str × Node)}
    (plain : PlainContainers (Node.preorderChildren [] entries)) :
    rootward (Node.preorderChildren [] entries) = entries := by
  induction entries with
  | nil => rfl
  | cons entry rest ih =>
      obtain ⟨name, child⟩ := entry
      obtain ⟨here, plainRest⟩ := List.forall_mem_append.mp plain
      obtain ⟨top, below⟩ := List.forall_mem_cons.mp here
      have atTop : nameOf [] = ROOT_TREE_CONFIG_NAME := rfl
      rw [Node.preorderChildren, rootward_append, rootward_cons_of_root name child _ atTop,
        rootward_preorder_eq_nil ([] ++ [name]) child top below, ih plainRest]
      rfl

/-- A configuration without such containers is copied as it should be. -/
theorem copiesRoot_of_plain {children : List (Str × Node)}
    (sorted : (Keyed.keys children).Pairwise (· < ·))
    (plain : PlainContainers (Node.composite children).nodes) : CopiesRoot (.composite children) := by
  have same : rootward (Node.composite children).nodes = children := rootward_eq_children plain
  refine (insertAll_rootward_iff sorted).mp ?_
  rw [same]
  exact Keyed.insertAll_of_sorted sorted

end Plain

end FlexConfig

namespace FlexConfig.Sample

open NodeCopyMakerVisitor

/-- The nodes of a tree with a container and a leaf in it. -/
def storedNames : Store :=
  [⟨"/".toList, none, none, .composite [("a".toList, 1)]⟩,
    ⟨"a".toList, some 0, none, .composite [("x".toList, 2)]⟩,
    ⟨"x".toList, some 1, none, .leaf "1".toList⟩]

def placedNames : List (Str × Placed) :=
  [("a".toList, .composite 1 [("x".toList, .leaf 2 "1".toList)])]

/-- The same tree, but that the container bears the name of the root. -/
def storedRootName : Store :=
  [⟨"/".toList, none, none, .composite [("/".toList, 1)]⟩,
    ⟨"/".toList, some 0, none, .composite [("x".toList, 2)]⟩,
    ⟨"x".toList, some 1, none, .leaf "1".toList⟩]

def placedRootName : List (Str × Placed) :=
  [("/".toList, .composite 1 [("x".toList, .leaf 2 "1".toList)])]

theorem stored_names :
    Stored storedNames ROOT_TREE_CONFIG_NAME none (.composite 0 placedNames) := by
  refine ⟨⟨none, rfl⟩, by decide, ⟨⟨none, rfl⟩, by decide, ⟨none, rfl⟩, trivial⟩, trivial⟩

theorem stored_root_name :
    Stored storedRootName ROOT_TREE_CONFIG_NAME none (.composite 0 placedRootName) := by
  refine ⟨⟨none, rfl⟩, by decide, ⟨⟨none, rfl⟩, by decide, ⟨none, rfl⟩, trivial⟩, trivial⟩

theorem names_isolated :
    ∃ result source copy, getNodeConfigCopyStored 3 0 storedNames = some result ∧
      Isolated (.composite 0 placedNames) result source copy := by
  refine (getNodeConfigCopy_isolated_iff stored_names (Nat.le_refl _)).mpr ?_
  exact copiesRoot_of_plain (by decide) (by unfold PlainContainers; decide +kernel)

/-- What is in the inner container of the name of the root is put into the root of the copy. -/
theorem root_name_not_isolated :
    Stored storedRootName ROOT_TREE_CONFIG_NAME none (.composite 0 placedRootName) ∧
      (getNodeConfigCopyStored 3 0 storedRootName).isSome ∧
      ¬ ∃ result source copy, getNodeConfigCopyStored 3 0 storedRootName = some result ∧
        Isolated (.composite 0 placedRootName) result source copy := by
  refine ⟨stored_root_name, by decide +kernel, fun ⟨result, source, copy, ran, isolated⟩ => ?_⟩
  have copies := copiesRoot_of_isolated stored_root_name (Nat.le_refl _) ran isolated
  exact absurd (copies "x".toList (.leaf "1".toList) (by decide +kernel)) (by decide +kernel)

end FlexConfig.Sample
