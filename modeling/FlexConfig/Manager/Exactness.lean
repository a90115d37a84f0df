import FlexConfig.Manager.Coherence
import FlexConfig.Ordering.Update
import Mathlib.Data.List.Nodup

/-! # Which nodes a patch touches

A patch is meant to remove the nodes at or below the paths of its remove operations,
and to check and post the nodes at or below the paths of its other operations. The
routine finds both lists by ordering whole containers and searching for the paths as
substrings, so each list is the intended one under a condition on the names and the
schema of the nodes in these containers.
-/

namespace FlexConfig

open Procedure

/-- A path is another one or lies below it. -/
def AtOrBelow (path xpath : Str) : Prop := xpath = path ∨ path ++ XPath.SEPARATOR <+: xpath

/-- The paths of the nodes of a tree. -/
def xpathsOf (root : Node) : List Str := root.nodes.map fun visited => XPath.toString visited.location

instance (path xpath : Str) : Decidable (AtOrBelow path xpath) :=
  inferInstanceAs (Decidable (_ ∨ _))

/-- A path at or below another contains it. -/
theorem contains_of_atOrBelow {path xpath : Str} (below : AtOrBelow path xpath) :
    Text.contains path xpath = true := by
  rcases below with rfl | extends'
  · exact Text.contains_of_prefix List.prefix_rfl
  · exact Text.contains_of_prefix ((List.prefix_append path _).trans extends')

theorem mentions_of_atOrBelow {paths : List Str} {path xpath : Str} (member : path ∈ paths)
    (below : AtOrBelow path xpath) : mentions paths xpath = true :=
  List.any_eq_true.mpr ⟨path, member, contains_of_atOrBelow below⟩

/-- Whether a list has exactly the members of a bounded kind is decided by looking at both. -/
theorem exact_iff_bounded {listed bound : List Str} {should : Str → Prop}
    (bounded : ∀ xpath, should xpath → xpath ∈ bound) :
    (∀ xpath, xpath ∈ listed ↔ should xpath) ↔
      (∀ xpath ∈ listed, should xpath) ∧ ∀ xpath ∈ bound, should xpath → xpath ∈ listed := by
  constructor
  · intro exact'
    exact ⟨fun xpath member => (exact' xpath).mp member,
      fun xpath _ wanted => (exact' xpath).mpr wanted⟩
  · rintro ⟨sound, complete⟩ xpath
    exact ⟨sound xpath, fun wanted => complete xpath (bounded xpath wanted) wanted⟩

section Removal

/-- The paths strictly above the removed paths of a patch. -/
def pathNodesOfPatch (items : List DiffItem) : List Str :=
  (removePaths items).flatMap fun path => pathNodesOf (XPath.parse path)

/-- The removed paths of a patch with the paths below the nodes they select. -/
def subnodesOfPatch (items : List DiffItem) (node_config : Node) : List Str :=
  (removePaths items).flatMap fun path =>
    match XPath.select node_config path with
    | none => []
    | some node => getSubnodesXPath node ++ [path]

/-- The copied containers of a patch. -/
def removalTree (items : List DiffItem) (node_config : Node) : Node :=
  collectNodes (pathNodesOfPatch items ++ subnodesOfPatch items node_config) node_config

/-- The nodes a patch is meant to remove. -/
def ShouldRemove (items : List DiffItem) (node_config : Node) (xpath : Str) : Prop :=
  xpath ∈ xpathsOf node_config ∧ ∃ path ∈ removePaths items, AtOrBelow path xpath

instance (items : List DiffItem) (node_config : Node) (xpath : Str) :
    Decidable (ShouldRemove items node_config xpath) := inferInstanceAs (Decidable (_ ∧ _))

/-- The removed nodes are those the patch is meant to remove, each once. -/
def RemovalExact (items : List DiffItem) (node_config : Node) (removal : Removal) : Prop :=
  removal.ordered.Nodup ∧ ∀ xpath, xpath ∈ removal.ordered ↔ ShouldRemove items node_config xpath

instance (items : List DiffItem) (node_config : Node) (removal : Removal) :
    Decidable (RemovalExact items node_config removal) :=
  decidable_of_iff _ (and_congr_right fun _ => (exact_iff_bounded fun _ should => should.1).symm)

/-- When the list of removed nodes is the intended one: every node at or below a removed path
is in the copied containers with a schema and not above another removed path, and no other
such node has a path in which a removed path occurs. Where the copied containers cannot be
sorted, there is nothing to remove. -/
def RemovalFits (env : Env) (items : List DiffItem) (node_config : Node) : Prop :=
  (Sorts env (removalTree items node_config) →
    (∀ xpath, ShouldRemove items node_config xpath →
      Orderable env (removalTree items node_config) xpath ∧ xpath ∉ pathNodesOfPatch items) ∧
    ∀ xpath, Orderable env (removalTree items node_config) xpath →
      xpath ∉ pathNodesOfPatch items → mentions (removePaths items) xpath = true →
        ShouldRemove items node_config xpath) ∧
  (¬ Sorts env (removalTree items node_config) →
    ∀ xpath, ¬ ShouldRemove items node_config xpath)

variable {env : Env} {items : List DiffItem} {node_config : Node}

theorem removePaths_cons (item : DiffItem) (rest : List DiffItem) :
    removePaths (item :: rest) =
      if item.isRemove then item.path :: removePaths rest else removePaths rest := by
  unfold removePaths
  rw [List.filter_cons]
  split <;> rfl

theorem scanRemovals_lists {scan after : Scan}
    (scanned : scanRemovals node_config items scan = .ok after) :
    after.pathNodes = scan.pathNodes ++ pathNodesOfPatch items ∧
      after.subnodes = scan.subnodes ++ subnodesOfPatch items node_config := by
  induction items generalizing scan with
  | nil =>
      cases scanned
      simp [pathNodesOfPatch, subnodesOfPatch, removePaths]
  | cons item rest ih =>
      obtain ⟨filled, _, scanned⟩ := except_bind_eq_ok.mp scanned
      cases removes : item.isRemove with
      | false =>
          have same : removePaths (item :: rest) = removePaths rest := by
            rw [removePaths_cons, if_neg (by simp [removes])]
          simp only [removes, Bool.not_false, if_true] at scanned
          obtain ⟨pathNodes, subnodes⟩ := ih scanned
          unfold pathNodesOfPatch subnodesOfPatch
          rw [same]
          exact ⟨pathNodes, subnodes⟩
      | true =>
          have first : removePaths (item :: rest) = item.path :: removePaths rest := by
            rw [removePaths_cons, if_pos removes]
          simp only [removes, Bool.not_true, Bool.false_eq_true, if_false] at scanned
          split at scanned
          · cases scanned
          split at scanned
          · cases scanned
          · next node selected =>
              obtain ⟨pathNodes, subnodes⟩ := ih scanned
              unfold pathNodesOfPatch subnodesOfPatch
              rw [pathNodes, subnodes, first, List.flatMap_cons, List.flatMap_cons, selected]
              simp only [pathNodesOfPatch, subnodesOfPatch, List.append_assoc, and_self]

/-- The removed nodes are the resolved nodes of the copied containers that pass the two
filters. -/
theorem planRemoval_ordered {patch jconfig : Json} {removal : Removal}
    (planned : planRemoval env patch jconfig node_config = .ok removal)
    (parsed : patch.patchItems = .ok items) :
    ∃ ordered, NodeDependencyManager.resolve env (removalTree items node_config) = .ok ordered ∧
      removal.ordered = ((ordered.filter fun xpath => xpath ∉ pathNodesOfPatch items).filter
        (mentions (removePaths items))).reverse := by
  obtain ⟨json_config, _, planned⟩ := except_bind_eq_ok.mp planned
  obtain ⟨items', parsed', planned⟩ := except_bind_eq_ok.mp planned
  rw [parsed] at parsed'
  cases parsed'
  obtain ⟨scan, scanned, planned⟩ := except_bind_eq_ok.mp planned
  obtain ⟨pathNodes, subnodes⟩ := scanRemovals_lists scanned
  rw [List.nil_append] at pathNodes subnodes
  rw [pathNodes, subnodes] at planned
  dsimp only at planned
  split at planned
  · obtain ⟨removed, sorted, planned⟩ := except_bind_eq_ok.mp planned
    obtain ⟨_, _, finished⟩ := except_bind_eq_ok.mp planned
    cases finished
    obtain ⟨ordered, resolved, finished⟩ := except_bind_eq_ok.mp sorted
    cases finished
    exact ⟨ordered, resolved, rfl⟩
  · cases planned

/-- A node is removed before those above it. -/
theorem removed_upperLast {patch jconfig : Json} {removal : Removal}
    (planned : planRemoval env patch jconfig node_config = .ok removal)
    (parsed : patch.patchItems = .ok items) :
    removal.ordered.Nodup ∧ UpperFirst removal.ordered.reverse := by
  obtain ⟨ordered, resolved, listed⟩ := planRemoval_ordered planned parsed
  obtain ⟨once, upperFirst⟩ := resolve_upperFirst resolved
  rw [listed, List.reverse_reverse, List.nodup_reverse]
  exact ⟨(once.filter _).filter _, (upperFirst.filter _).filter _⟩

theorem removalExact_iff_of_begun {patch jconfig : Json} {before : Draft} {removal : Removal}
    {index : References} (begun : Begun env patch jconfig before items removal index) :
    RemovalExact items before.nodeConfig removal ↔ RemovalFits env items before.nodeConfig := by
  obtain ⟨ordered, resolved, listed⟩ := planRemoval_ordered begun.planned begun.parsed
  obtain ⟨unique, sorted, unsorted⟩ := resolve_spec resolved
  have members (xpath : Str) : xpath ∈ removal.ordered ↔
      xpath ∈ ordered ∧ xpath ∉ pathNodesOfPatch items ∧
        mentions (removePaths items) xpath = true := by
    rw [listed, List.mem_reverse, List.mem_filter, List.mem_filter, and_assoc, decide_eq_true_iff]
  have distinct : removal.ordered.Nodup := by
    rw [listed, List.nodup_reverse]
    exact (unique.filter _).filter _
  constructor
  · rintro ⟨_, exact'⟩
    refine ⟨fun sorts => ⟨fun xpath should => ?_, fun xpath orderable below occurs => ?_⟩,
      fun unsortable xpath should => ?_⟩
    · obtain ⟨inOrder, notAbove, _⟩ := (members xpath).mp ((exact' xpath).mpr should)
      exact ⟨(sorted sorts xpath).mp inOrder, notAbove⟩
    · exact (exact' xpath).mp
        ((members xpath).mpr ⟨(sorted sorts xpath).mpr orderable, below, occurs⟩)
    · obtain ⟨inOrder, _⟩ := (members xpath).mp ((exact' xpath).mpr should)
      rw [unsorted unsortable] at inOrder
      cases inOrder
  · rintro ⟨sortable, unsortable⟩
    refine ⟨distinct, fun xpath => ?_⟩
    rw [members]
    by_cases sorts : Sorts env (removalTree items before.nodeConfig)
    · obtain ⟨covered, apart⟩ := sortable sorts
      rw [sorted sorts]
      constructor
      · rintro ⟨orderable, notAbove, occurs⟩
        exact apart xpath orderable notAbove occurs
      · intro should
        obtain ⟨orderable, notAbove⟩ := covered xpath should
        obtain ⟨_, path, member, below⟩ := should
        exact ⟨orderable, notAbove, mentions_of_atOrBelow member below⟩
    · rw [unsorted sorts]
      constructor
      · rintro ⟨impossible, _⟩
        cases impossible
      · intro should
        exact absurd should (unsortable sorts xpath)

/-- The removal of a patch that is accepted is exact exactly when the patch fits its tree and
schema. -/
theorem removal_exact_iff {site : Site} {patch jconfig : Json} {before : Draft}
    (course : Course env site patch jconfig before) :
    RemovalExact course.items before.nodeConfig course.removal ↔
      RemovalFits env course.items before.nodeConfig :=
  removalExact_iff_of_begun course.begun

end Removal

section Update

variable {env : Env} {items : List DiffItem} {removal : Removal} {before : Draft}
  {json_config : Json} {edited patched : Node} {ordered : List Str} {saved : References}

/-- The updated nodes are the resolved nodes of the edited tree that pass the filter. -/
theorem prepared_ordered
    (prepared : Prepared env items removal before json_config edited ordered saved) :
    ∃ resolved, NodeDependencyManager.resolve env edited = .ok resolved ∧
      ordered = resolved.filter (mentions (updatePaths items)) ∧
      checkUpdates env edited ordered = .ok ⟨⟩ ∧
      saveXPathReference env ordered edited before.references = .ok saved := by
  obtain ⟨listed, sorted, planned⟩ := except_bind_eq_ok.mp prepared.planned
  obtain ⟨_, checked, planned⟩ := except_bind_eq_ok.mp planned
  obtain ⟨index, references, finished⟩ := except_bind_eq_ok.mp planned
  cases finished
  obtain ⟨resolved, orders, finished⟩ := except_bind_eq_ok.mp sorted
  cases finished
  exact ⟨resolved, orders, rfl, checked, references⟩

/-- A node is updated after those above it. -/
theorem updated_upperFirst
    (prepared : Prepared env items removal before json_config edited ordered saved) :
    ordered.Nodup ∧ UpperFirst ordered := by
  obtain ⟨resolved, orders, listed, _, _⟩ := prepared_ordered prepared
  obtain ⟨once, upperFirst⟩ := resolve_upperFirst orders
  rw [listed]
  exact ⟨once.filter _, upperFirst.filter _⟩

end Update

end FlexConfig

namespace FlexConfig.Sample

open Procedure

/-- A container with leaves one of whose names begins another one, and a second container. -/
def siblings : Env :=
  deployment (container [("a", container [("e1", posted), ("e10", posted), ("f", posted)]),
    ("b", container [("g", posted)])]) fun _ => true

def siblingsConfig : Json :=
  object [("a", object [("e1", text "x"), ("e10", text "y"), ("f", text "z")])]

/-- A patch that removes `/a/e1` is accepted, and takes `/a/e10` along. -/
theorem removal_takes_sibling :
    ∃ manager ∈ Manager.reached siblings siblingsConfig [],
      Manager.Reachable siblings manager ∧
        ∃ making : Manager.Making siblings (.array [operation "remove" "/a/e1" none]) manager,
          "/a/e10".toList ∈ making.course.removal.ordered ∧
            ¬ RemovalExact making.course.items making.root making.course.removal := by
  have taken : ∃ manager ∈ Manager.reached siblings siblingsConfig [],
      ∃ making ∈ Manager.Making.find siblings (.array [operation "remove" "/a/e1" none]) manager,
        "/a/e10".toList ∈ making.course.removal.ordered ∧
          ¬ RemovalExact making.course.items making.root making.course.removal := by
    decide +kernel
  obtain ⟨manager, reaches, making, _, sibling, inexact⟩ := taken
  exact ⟨manager, reaches, Manager.reachedBy_of_reached (fun _ _ _ => trivial) reaches, making,
    sibling, inexact⟩

example : ∃ manager ∈ Manager.reached siblings siblingsConfig [],
    ∃ making ∈ Manager.Making.find siblings (.array [operation "remove" "/a/f" none]) manager,
      RemovalExact making.course.items making.root making.course.removal := by
  decide +kernel

end FlexConfig.Sample
