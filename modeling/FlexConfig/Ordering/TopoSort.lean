import FlexConfig.Json.Value
import Mathlib.Data.List.Induction
import Mathlib.Data.List.Nodup
import Mathlib.Data.List.Perm.Subperm
import Mathlib.Logic.Relation

/-! # Sorting names by their dependencies

Every key of an adjacency map is unfolded into a tree of the names it depends on,
the trees are resolved one after another, and the resolved names are merged into
one list in which a name is put before the first longer name that contains it.

The unfolding only recognizes a cycle of two names. A longer cycle is unfolded
without end, which exhausts the stack.
-/

/-! ## Depth-first order

The order in which a depth-first search leaves the names of a graph: a name is listed after the
names it depends on, and where it is met again it is passed over. The search is given fuel.
-/

namespace DepthFirst

variable {α : Type*} [DecidableEq α]

/-- Visit a name after those it depends on, unless it was visited before. -/
def visit (dependencies : α → List α) : (fuel : Nat) → (visited : List α) → (name : α) → List α
  | 0, visited, _ => visited
  | fuel + 1, visited, name =>
    if name ∈ visited then visited
    else (dependencies name).foldl (visit dependencies fuel) visited ++ [name]

/-- The names met from the roots, taken in turn. -/
def order (dependencies : α → List α) (fuel : Nat) (roots : List α) : List α :=
  roots.foldl (visit dependencies fuel) []

/-- The first occurrences of the names of a list. -/
def firsts (names : List α) : List α :=
  names.foldl (fun seen name => if name ∈ seen then seen else seen ++ [name]) []

theorem firsts_concat (names : List α) (name : α) :
    firsts (names ++ [name]) =
      if name ∈ firsts names then firsts names else firsts names ++ [name] :=
  List.foldl_append

@[simp] theorem mem_firsts {names : List α} {name : α} : name ∈ firsts names ↔ name ∈ names := by
  induction names using List.reverseRecOn with
  | nil => exact Iff.rfl
  | append_singleton names last ih =>
      rw [firsts_concat]
      by_cases seen : last ∈ firsts names
      · rw [if_pos seen, ih, List.mem_append, List.mem_singleton]
        refine ⟨Or.inl, fun member => member.elim id fun same => ?_⟩
        rw [← ih, same]
        exact seen
      · rw [if_neg seen, List.mem_append, ih, List.mem_append]

end DepthFirst

namespace FlexConfig

open Procedure

/-- For every name, in name order, the names it depends on. -/
abbrev Adjacency := List (Str × List Str)

/-- Why no order was found. -/
inductive SortHalt where
  | refused (message : Str)
  | overflow
  deriving DecidableEq

namespace Graph

/-- A name with the unfolded names it depends on. -/
inductive Node where
  | mk (name : Str) (edges : List Node)

def Node.name : Node → Str
  | .mk name _ => name

mutual

/-- Append a node after its edges to the resolved names. The test that skips an edge
asks for the node itself, not for the edge. -/
def depResolve : Graph.Node → (state : List Str × List Str) → Except SortHalt (List Str × List Str)
  | .mk name edges, (resolved, unresolved) => do
    let (resolved, unresolved) ← depResolveEdges name edges (resolved, unresolved ++ [name])
    return (resolved ++ [name], unresolved.filter (· ≠ name))

def depResolveEdges (name : Str) :
    List Graph.Node → (state : List Str × List Str) → Except SortHalt (List Str × List Str)
  | [], state => .ok state
  | edge :: rest, (resolved, unresolved) =>
    if name ∈ resolved then depResolveEdges name rest (resolved, unresolved)
    else if edge.name ∈ unresolved then
      .error (.refused ("Circular reference detected: ".toList ++ name ++ " -> ".toList ++
        edge.name))
    else do
      let next ← depResolve edge (resolved, unresolved)
      depResolveEdges name rest next

end

end Graph

/-- Unfold a name. A path with more names than there are keys repeats a key, and so
never ends: it is given up where `fuel` is used up. -/
def makeGraphNode (adj_list : Adjacency) : (fuel : Nat) → (name : Str) →
    Except SortHalt Graph.Node
  | 0, _ => .error .overflow
  | fuel + 1, name => do
    let edges ← ((Keyed.find name adj_list).getD []).mapM fun edge_name =>
      if name ∈ (Keyed.find edge_name adj_list).getD [] then
        .error (.refused ("Detected cyclic dependency: ".toList ++ edge_name ++ " -> ".toList ++
          name))
      else makeGraphNode adj_list fuel edge_name
    return .mk name edges

/-- Put a name before the first longer one that contains it. -/
def putBeforeLonger (name : Str) : (ordered_cmds : List Str) → List Str
  | [] => [name]
  | node_xpath :: rest =>
    if Text.contains name node_xpath && decide (name.length < node_xpath.length) then
      name :: node_xpath :: rest
    else node_xpath :: putBeforeLonger name rest

/-- Merge the resolved names that are keys, each once. -/
def mergeResolved : (resolved waiting ordered_cmds : List Str) → List Str
  | [], _, ordered_cmds => ordered_cmds
  | name :: rest, waiting, ordered_cmds =>
    if name ∈ waiting then
      mergeResolved rest (waiting.filter (· ≠ name)) (putBeforeLonger name ordered_cmds)
    else mergeResolved rest waiting ordered_cmds

def run_update_op (adj_list : Adjacency) : Except SortHalt (List Str) := do
  let graph_nodes ← (Keyed.keys adj_list).mapM (makeGraphNode adj_list (adj_list.length + 1))
  let (resolved, _) ← graph_nodes.reverse.foldlM (fun state node => Graph.depResolve node state)
    (([], []) : List Str × List Str)
  return mergeResolved resolved (Keyed.keys adj_list) []

section Resolve

mutual

/-- Resolving a node loses no resolved name and adds the node's own. -/
theorem depResolve_subset : ∀ {node : Graph.Node} {before after : List Str × List Str},
    Graph.depResolve node before = .ok after →
      before.1 ⊆ after.1 ∧ node.name ∈ after.1
  | .mk name edges, (resolved, unresolved), after, returned => by
      rw [Graph.depResolve] at returned
      obtain ⟨⟨grown, open'⟩, edgesDone, finished⟩ := except_bind_eq_ok.mp returned
      cases finished
      have kept := depResolveEdges_subset edgesDone
      exact ⟨fun _ member => List.mem_append_left _ (kept member),
        List.mem_append_right _ List.mem_cons_self⟩

theorem depResolveEdges_subset : ∀ {name : Str} {edges : List Graph.Node}
    {before after : List Str × List Str},
    Graph.depResolveEdges name edges before = .ok after → before.1 ⊆ after.1
  | _, [], _, _, returned => by
      rw [Graph.depResolveEdges] at returned
      cases returned
      exact fun _ member => member
  | name, edge :: rest, (resolved, unresolved), after, returned => by
      rw [Graph.depResolveEdges] at returned
      split at returned
      · exact depResolveEdges_subset returned
      · split at returned
        · cases returned
        · obtain ⟨next, edgeDone, restDone⟩ := except_bind_eq_ok.mp returned
          have first := (depResolve_subset edgeDone).1
          exact fun _ member => depResolveEdges_subset restDone (first member)

end

theorem makeGraphNode_name {adj_list : Adjacency} {fuel : Nat} {name : Str} {node : Graph.Node}
    (made : makeGraphNode adj_list fuel name = .ok node) : node.name = name := by
  cases fuel with
  | zero => cases made
  | succ fuel =>
      obtain ⟨edges, _, finished⟩ := except_bind_eq_ok.mp made
      cases finished
      rfl

/-- Every name for which a node was made is the name of one of the nodes. -/
private theorem exists_of_mapM {adj_list : Adjacency} {fuel : Nat} {names : List Str}
    {nodes : List Graph.Node} (made : names.mapM (makeGraphNode adj_list fuel) = .ok nodes)
    {name : Str} (member : name ∈ names) : ∃ node ∈ nodes, node.name = name := by
  induction names generalizing nodes with
  | nil => cases member
  | cons other rest ih =>
      rw [List.mapM_cons] at made
      obtain ⟨node, first, made⟩ := except_bind_eq_ok.mp made
      obtain ⟨others, tail, finished⟩ := except_bind_eq_ok.mp made
      cases finished
      rcases List.mem_cons.mp member with same | later
      · exact ⟨node, List.mem_cons_self, (makeGraphNode_name first).trans same.symm⟩
      · obtain ⟨found, inRest, named⟩ := ih tail later
        exact ⟨found, List.mem_cons_of_mem _ inRest, named⟩

/-- Resolving the nodes in turn resolves every one of them. -/
private theorem foldlM_resolves {nodes : List Graph.Node} {before after : List Str × List Str}
    (returned : nodes.foldlM (fun state node => Graph.depResolve node state) before = .ok after) :
    before.1 ⊆ after.1 ∧ ∀ node ∈ nodes, node.name ∈ after.1 := by
  induction nodes generalizing before with
  | nil =>
      cases returned
      exact ⟨fun _ member => member, fun _ impossible => by cases impossible⟩
  | cons node rest ih =>
      rw [List.foldlM_cons] at returned
      obtain ⟨next, first, others⟩ := except_bind_eq_ok.mp returned
      obtain ⟨kept, added⟩ := depResolve_subset first
      obtain ⟨keptLater, addedLater⟩ := ih others
      refine ⟨fun _ member => keptLater (kept member), fun found member => ?_⟩
      rcases List.mem_cons.mp member with same | later
      · rw [same]
        exact keptLater added
      · exact addedLater found later

end Resolve

section Merge

theorem mem_putBeforeLonger {name query : Str} {ordered : List Str} :
    query ∈ putBeforeLonger name ordered ↔ query = name ∨ query ∈ ordered := by
  induction ordered with
  | nil => simp [putBeforeLonger]
  | cons other rest ih =>
      unfold putBeforeLonger
      split
      · rw [List.mem_cons]
      · rw [List.mem_cons, ih, List.mem_cons]
        exact or_left_comm

theorem nodup_putBeforeLonger {name : Str} {ordered : List Str} (distinct : ordered.Nodup)
    (fresh : name ∉ ordered) : (putBeforeLonger name ordered).Nodup := by
  induction ordered with
  | nil => simp [putBeforeLonger]
  | cons other rest ih =>
      rw [List.nodup_cons] at distinct
      rw [List.mem_cons, not_or] at fresh
      unfold putBeforeLonger
      split
      · refine List.nodup_cons.mpr ⟨?_, List.nodup_cons.mpr distinct⟩
        rw [List.mem_cons, not_or]
        exact fresh
      · refine List.nodup_cons.mpr ⟨?_, ih distinct.2 fresh.2⟩
        rw [mem_putBeforeLonger, not_or]
        exact ⟨fun same => fresh.1 same.symm, distinct.1⟩

/-- Merging keeps the list free of repetitions and adds exactly the waiting names
that were resolved. -/
theorem mergeResolved_spec (resolved waiting ordered : List Str) (distinct : ordered.Nodup)
    (apart : ∀ name ∈ waiting, name ∉ ordered) :
    (mergeResolved resolved waiting ordered).Nodup ∧
      ∀ query, query ∈ mergeResolved resolved waiting ordered ↔
        query ∈ ordered ∨ (query ∈ resolved ∧ query ∈ waiting) := by
  induction resolved generalizing waiting ordered with
  | nil => simp [mergeResolved, distinct]
  | cons name rest ih =>
      unfold mergeResolved
      split
      · next waits =>
          have grown := nodup_putBeforeLonger distinct (apart name waits)
          have stillApart : ∀ other ∈ waiting.filter (· ≠ name),
              other ∉ putBeforeLonger name ordered := by
            intro other member
            obtain ⟨stillWaits, differs⟩ := List.mem_filter.mp member
            rw [mem_putBeforeLonger, not_or]
            exact ⟨of_decide_eq_true differs, apart other stillWaits⟩
          obtain ⟨unique, members⟩ := ih _ _ grown stillApart
          refine ⟨unique, fun query => ?_⟩
          rw [members, mem_putBeforeLonger, List.mem_filter, List.mem_cons, decide_eq_true_iff]
          by_cases same : query = name
          · simp [same, waits]
          · simp [same]
      · next absent =>
          obtain ⟨unique, members⟩ := ih waiting ordered distinct apart
          refine ⟨unique, fun query => ?_⟩
          rw [members, List.mem_cons]
          by_cases same : query = name
          · simp [same, absent]
          · simp [same]

end Merge

/-- Where an order is found, it lists every key once and nothing else. -/
theorem run_update_op_spec {adj_list : Adjacency} {ordered : List Str}
    (sorted : run_update_op adj_list = .ok ordered) :
    ordered.Nodup ∧ ∀ name, name ∈ ordered ↔ name ∈ Keyed.keys adj_list := by
  obtain ⟨nodes, made, sorted⟩ := except_bind_eq_ok.mp sorted
  obtain ⟨⟨resolved, unresolved⟩, resolvedAll, finished⟩ := except_bind_eq_ok.mp sorted
  cases finished
  obtain ⟨unique, members⟩ := mergeResolved_spec resolved (Keyed.keys adj_list) []
    List.nodup_nil (fun _ _ => List.not_mem_nil)
  refine ⟨unique, fun name => ?_⟩
  rw [members]
  constructor
  · rintro (impossible | ⟨_, waits⟩)
    · cases impossible
    · exact waits
  · intro key
    obtain ⟨node, member, named⟩ := exists_of_mapM made key
    have resolvedName := (foldlM_resolves resolvedAll).2 node (List.mem_reverse.mpr member)
    exact Or.inr ⟨named ▸ resolvedName, key⟩

section Cycle

/-- A name is listed among those another one depends on. -/
def DependsOn (adj_list : Adjacency) (name dep : Str) : Prop :=
  dep ∈ (Keyed.find name adj_list).getD []

/-- Some name depends on itself, directly or through others. -/
def Cyclic (adj_list : Adjacency) : Prop :=
  ∃ name, Relation.TransGen (DependsOn adj_list) name name

variable {adj_list : Adjacency}

theorem DependsOn.mem_keys {name dep : Str} (depends : DependsOn adj_list name dep) :
    name ∈ Keyed.keys adj_list := by
  unfold DependsOn at depends
  cases found : Keyed.find name adj_list with
  | none =>
      rw [found] at depends
      cases depends
  | some deps => exact List.mem_map.mpr ⟨(name, deps), Keyed.mem_of_find found, rfl⟩

/-- A node is unfolded when what its name depends on is, and does not depend on it. -/
theorem makeGraphNode_succ_iff {fuel : Nat} {name : Str} :
    (∃ node, makeGraphNode adj_list (fuel + 1) name = .ok node) ↔
      ∀ dep, DependsOn adj_list name dep → ¬ DependsOn adj_list dep name ∧
        ∃ edge, makeGraphNode adj_list fuel dep = .ok edge := by
  have unfolds : (∃ node, makeGraphNode adj_list (fuel + 1) name = .ok node) ↔
      ∃ edges, ((Keyed.find name adj_list).getD []).mapM (fun edge_name =>
        if name ∈ (Keyed.find edge_name adj_list).getD [] then
          .error (.refused ("Detected cyclic dependency: ".toList ++ edge_name ++
            " -> ".toList ++ name))
        else makeGraphNode adj_list fuel edge_name) = .ok edges := by
    constructor
    · intro ⟨node, made⟩
      obtain ⟨edges, unfolded, _⟩ := except_bind_eq_ok.mp made
      exact ⟨edges, unfolded⟩
    · intro ⟨edges, unfolded⟩
      exact ⟨.mk name edges, except_bind_eq_ok.mpr ⟨edges, unfolded, rfl⟩⟩
  rw [unfolds, exists_mapM_eq_ok_iff]
  refine forall₂_congr fun dep _ => ?_
  by_cases back : name ∈ (Keyed.find dep adj_list).getD []
  · simp [back, DependsOn]
  · simp [back, DependsOn]

/-- A name from which a cycle can be reached. -/
def LeadsToCycle (adj_list : Adjacency) (name : Str) : Prop :=
  ∃ other, Relation.ReflTransGen (DependsOn adj_list) name other ∧
    Relation.TransGen (DependsOn adj_list) other other

theorem leadsToCycle_iff {name : Str} :
    LeadsToCycle adj_list name ↔ ∃ dep, DependsOn adj_list name dep ∧ LeadsToCycle adj_list dep := by
  constructor
  · intro ⟨other, path, cycle⟩
    rcases path.cases_head with rfl | ⟨dep, depends, further⟩
    · obtain ⟨dep, depends, back⟩ := Relation.TransGen.head'_iff.mp cycle
      exact ⟨dep, depends, dep, .refl, .tail' back depends⟩
    · exact ⟨dep, depends, other, further, cycle⟩
  · intro ⟨dep, depends, other, further, cycle⟩
    exact ⟨other, .head depends further, cycle⟩

/-- A name that leads to a cycle is never unfolded. -/
theorem not_unfolded_of_leadsToCycle {fuel : Nat} {name : Str}
    (leads : LeadsToCycle adj_list name) :
    ¬ ∃ node, makeGraphNode adj_list fuel name = .ok node := by
  induction fuel generalizing name with
  | zero =>
      intro ⟨node, made⟩
      cases made
  | succ fuel ih =>
      intro unfolded
      obtain ⟨dep, depends, further⟩ := leadsToCycle_iff.mp leads
      exact ih further (makeGraphNode_succ_iff.mp unfolded dep depends).2

/-- A name that leads to no cycle is unfolded with as much fuel as there are keys outside
the path to it. -/
theorem unfolded_of_safe {fuel : Nat} {name : Str} (safe : ¬ LeadsToCycle adj_list name)
    {path : List Str} (distinct : path.Nodup) (known : path ⊆ Keyed.keys adj_list)
    (leads : ∀ above ∈ path, Relation.TransGen (DependsOn adj_list) above name)
    (enough : adj_list.length < fuel + path.length) :
    ∃ node, makeGraphNode adj_list fuel name = .ok node := by
  induction fuel generalizing name path with
  | zero =>
      have bound := (distinct.subperm known).length_le
      rw [Keyed.keys, List.length_map] at bound
      omega
  | succ fuel ih =>
      refine makeGraphNode_succ_iff.mpr fun dep depends => ⟨fun back => ?_, ?_⟩
      · exact safe ⟨name, .refl, (Relation.TransGen.single depends).tail back⟩
      · have fresh : name ∉ path := fun member => safe ⟨name, .refl, leads name member⟩
        have longer : adj_list.length < fuel + (name :: path).length := by
          rw [List.length_cons]
          omega
        have safeDep : ¬ LeadsToCycle adj_list dep :=
          fun further => safe (leadsToCycle_iff.mpr ⟨dep, depends, further⟩)
        refine ih safeDep (List.nodup_cons.mpr ⟨fresh, distinct⟩) ?_ ?_ longer
        · exact List.cons_subset.mpr ⟨depends.mem_keys, known⟩
        · refine List.forall_mem_cons.mpr ⟨Relation.TransGen.single depends, ?_⟩
          exact fun above member => (leads above member).tail depends

theorem not_leadsToCycle_of_acyclic (acyclic : ¬ Cyclic adj_list) (name : Str) :
    ¬ LeadsToCycle adj_list name := fun ⟨other, _, cycle⟩ => acyclic ⟨other, cycle⟩

/-- The names a name depends on. -/
def dependenciesOf (adj_list : Adjacency) (name : Str) : List Str :=
  (Keyed.find name adj_list).getD []

/-- Resolving a node visits its name depth first, and adds only names it leads to. -/
structure Visits (adj_list : Adjacency) (fuel : Nat) (name : Str) (resolved grown : List Str) :
    Prop where
  firsts : DepthFirst.firsts grown =
    DepthFirst.visit (dependenciesOf adj_list) fuel (DepthFirst.firsts resolved) name
  added : ∀ other ∈ grown, other ∈ resolved ∨ Relation.ReflTransGen (DependsOn adj_list) name other

/-- Edges that are resolved one by one below a name that is not resolved, and do not lead
to it, are resolved in turn. -/
theorem depResolveEdges_of_each {fuel : Nat} {name : Str} {edges : List Graph.Node}
    {unresolved resolved : List Str}
    (resolves : ∀ edge ∈ edges, edge.name ∉ unresolved ∧ ∀ resolved, ∃ grown,
      Graph.depResolve edge (resolved, unresolved) = .ok (grown, unresolved) ∧
        Visits adj_list fuel edge.name resolved grown)
    (apart : ∀ edge ∈ edges, ¬ Relation.ReflTransGen (DependsOn adj_list) edge.name name)
    (fresh : name ∉ resolved) :
    ∃ grown, Graph.depResolveEdges name edges (resolved, unresolved) = .ok (grown, unresolved) ∧
      DepthFirst.firsts grown = (edges.map Graph.Node.name).foldl
        (DepthFirst.visit (dependenciesOf adj_list) fuel) (DepthFirst.firsts resolved) ∧
      ∀ other ∈ grown, other ∈ resolved ∨
        ∃ edge ∈ edges, Relation.ReflTransGen (DependsOn adj_list) edge.name other := by
  induction edges generalizing resolved with
  | nil => exact ⟨resolved, rfl, rfl, fun _ member => Or.inl member⟩
  | cons edge rest ih =>
      obtain ⟨⟨closed, first⟩, others⟩ := List.forall_mem_cons.mp resolves
      obtain ⟨apartFirst, apartOthers⟩ := List.forall_mem_cons.mp apart
      obtain ⟨between, edgeDone, visited⟩ := first resolved
      have stillFresh : name ∉ between := by
        intro member
        rcases visited.added name member with before | leads
        · exact fresh before
        · exact apartFirst leads
      obtain ⟨grown, restDone, order, added⟩ := ih others apartOthers stillFresh
      refine ⟨grown, ?_, ?_, fun other member => ?_⟩
      · unfold Graph.depResolveEdges
        rw [if_neg fresh, if_neg closed]
        exact except_bind_eq_ok.mpr ⟨_, edgeDone, restDone⟩
      · rw [order, visited.firsts, List.map_cons, List.foldl_cons]
      · rcases added other member with earlier | ⟨later, inRest, leads⟩
        · rcases visited.added other earlier with before | leads
          · exact Or.inl before
          · exact Or.inr ⟨edge, List.mem_cons_self, leads⟩
        · exact Or.inr ⟨later, List.mem_cons_of_mem _ inRest, leads⟩

/-- The edges of a name that is resolved already are passed over. -/
theorem depResolveEdges_of_resolved {name : Str} {edges : List Graph.Node}
    {unresolved resolved : List Str} (done : name ∈ resolved) :
    Graph.depResolveEdges name edges (resolved, unresolved) = .ok (resolved, unresolved) := by
  induction edges with
  | nil => rfl
  | cons edge rest ih =>
      unfold Graph.depResolveEdges
      rw [if_pos done]
      exact ih

/-- Without a cycle the node unfolded from a name is resolved below names that depend on
it, these stay the open ones, and its names are visited depth first. -/
theorem depResolve_of_acyclic (acyclic : ¬ Cyclic adj_list) {fuel : Nat} {name : Str}
    {node : Graph.Node} (made : makeGraphNode adj_list fuel name = .ok node)
    {unresolved : List Str}
    (leads : ∀ above ∈ unresolved, Relation.TransGen (DependsOn adj_list) above name)
    (resolved : List Str) :
    ∃ grown, Graph.depResolve node (resolved, unresolved) = .ok (grown, unresolved) ∧
      Visits adj_list fuel name resolved grown := by
  induction fuel generalizing name node unresolved resolved with
  | zero => cases made
  | succ fuel ih =>
      obtain ⟨edges, unfolded, finished⟩ := except_bind_eq_ok.mp made
      cases finished
      have edgeMade : ∀ edge ∈ edges, DependsOn adj_list name edge.name ∧
          makeGraphNode adj_list fuel edge.name = .ok edge := by
        intro edge member
        obtain ⟨dep, depends, computed⟩ := (mem_of_mapM unfolded).mp member
        split at computed
        · cases computed
        · rw [makeGraphNode_name computed]
          exact ⟨depends, computed⟩
      have fresh : name ∉ unresolved := fun member => acyclic ⟨name, leads name member⟩
      have closed : (unresolved ++ [name]).filter (· ≠ name) = unresolved := by
        rw [List.filter_append, List.filter_eq_self.mpr]
        · simp
        · intro above member
          exact decide_eq_true fun same => fresh (same ▸ member)
      have finish : ∀ grown,
          Graph.depResolveEdges name edges (resolved, unresolved ++ [name]) =
            .ok (grown, unresolved ++ [name]) →
          Graph.depResolve (.mk name edges) (resolved, unresolved) =
            .ok (grown ++ [name], unresolved) := by
        intro grown edgesDone
        rw [Graph.depResolve]
        refine except_bind_eq_ok.mpr ⟨_, edgesDone, ?_⟩
        exact congrArg (fun kept => Except.ok (grown ++ [name], kept)) closed
      by_cases done : name ∈ resolved
      · refine ⟨resolved ++ [name], finish resolved (depResolveEdges_of_resolved done), ?_, ?_⟩
        · rw [DepthFirst.firsts_concat, DepthFirst.visit]
          have seen : name ∈ DepthFirst.firsts resolved := DepthFirst.mem_firsts.mpr done
          rw [if_pos seen, if_pos seen]
        · intro other member
          rcases List.mem_append.mp member with before | same
          · exact Or.inl before
          · rw [List.mem_singleton.mp same]
            exact Or.inr .refl
      · have below : ∀ above ∈ unresolved ++ [name], ∀ edge ∈ edges,
            Relation.TransGen (DependsOn adj_list) above edge.name := by
          intro above member edge inEdges
          have depends := (edgeMade edge inEdges).1
          rcases List.mem_append.mp member with higher | same
          · exact (leads above higher).tail depends
          · rw [List.mem_singleton.mp same]
            exact .single depends
        obtain ⟨grown, edgesDone, order, added⟩ := depResolveEdges_of_each
          (fun edge member => ⟨fun cycle => acyclic ⟨edge.name, below edge.name cycle edge member⟩,
            ih (edgeMade edge member).2 fun above open' => below above open' edge member⟩)
          (fun edge member back => acyclic
            ⟨name, .head' (edgeMade edge member).1 back⟩) done
        have names : edges.map Graph.Node.name = dependenciesOf adj_list name := by
          refine map_of_mapM unfolded fun {edge_name edge} computed => ?_
          split at computed
          · cases computed
          · exact makeGraphNode_name computed
        have unseen : name ∉ grown := by
          intro member
          rcases added name member with before | ⟨edge, inEdges, back⟩
          · exact done before
          · exact acyclic ⟨name, .head' (edgeMade edge inEdges).1 back⟩
        refine ⟨grown ++ [name], finish grown edgesDone, ?_, ?_⟩
        · rw [DepthFirst.firsts_concat, DepthFirst.visit,
            if_neg (fun member => unseen (DepthFirst.mem_firsts.mp member)),
            if_neg (fun member => done (DepthFirst.mem_firsts.mp member)), order, names]
        · intro other member
          rcases List.mem_append.mp member with grownBefore | same
          · rcases added other grownBefore with before | ⟨edge, inEdges, reaches⟩
            · exact Or.inl before
            · exact Or.inr (.head (edgeMade edge inEdges).1 reaches)
          · rw [List.mem_singleton.mp same]
            exact Or.inr .refl

/-- Without a cycle unfolded nodes are resolved in turn, and visited depth first. -/
theorem foldlM_depResolve_of_acyclic (acyclic : ¬ Cyclic adj_list) {fuel : Nat}
    {nodes : List Graph.Node}
    (made : ∀ node ∈ nodes, makeGraphNode adj_list fuel node.name = .ok node)
    (resolved : List Str) :
    ∃ grown, nodes.foldlM (fun state node => Graph.depResolve node state) (resolved, []) =
        .ok (grown, []) ∧
      DepthFirst.firsts grown = (nodes.map Graph.Node.name).foldl
        (DepthFirst.visit (dependenciesOf adj_list) fuel) (DepthFirst.firsts resolved) := by
  induction nodes generalizing resolved with
  | nil => exact ⟨resolved, rfl, rfl⟩
  | cons node rest ih =>
      obtain ⟨first, others⟩ := List.forall_mem_cons.mp made
      have outermost : ∀ above ∈ ([] : List Str),
          Relation.TransGen (DependsOn adj_list) above node.name :=
        fun _ impossible => (by cases impossible)
      obtain ⟨between, nodeDone, visited⟩ :=
        depResolve_of_acyclic acyclic first outermost resolved
      obtain ⟨grown, restDone, order⟩ := ih others between
      refine ⟨grown, ?_, ?_⟩
      · rw [List.foldlM_cons]
        exact except_bind_eq_ok.mpr ⟨_, nodeDone, restDone⟩
      · rw [order, visited.firsts, List.map_cons, List.foldl_cons]

/-- The keys in the order in which a depth-first search from the last key to the first
leaves them. -/
def resolvedKeys (adj_list : Adjacency) : List Str :=
  (DepthFirst.order (dependenciesOf adj_list) (adj_list.length + 1)
    (Keyed.keys adj_list).reverse).filter (· ∈ Keyed.keys adj_list)

/-- Put names into a list one after another. -/
def mergeAll (names : List Str) : List Str :=
  names.foldl (fun ordered_cmds name => putBeforeLonger name ordered_cmds) []

theorem mergeAll_concat (names : List Str) (last : Str) :
    mergeAll (names ++ [last]) = putBeforeLonger last (mergeAll names) := by
  simp only [mergeAll, List.foldl_append, List.foldl_cons, List.foldl_nil]

theorem mergeResolved_concat (resolved waiting ordered : List Str) (name : Str) :
    mergeResolved (resolved ++ [name]) waiting ordered =
      if name ∈ waiting ∧ name ∉ resolved then
        putBeforeLonger name (mergeResolved resolved waiting ordered)
      else mergeResolved resolved waiting ordered := by
  induction resolved generalizing waiting ordered with
  | nil => simp [mergeResolved]
  | cons first rest ih =>
      rw [List.cons_append, mergeResolved, mergeResolved]
      by_cases waits : first ∈ waiting
      · rw [if_pos waits, if_pos waits, ih]
        refine if_congr ?_ rfl rfl
        by_cases same : name = first <;> simp [same]
      · rw [if_neg waits, if_neg waits, ih]
        refine if_congr ?_ rfl rfl
        by_cases same : name = first <;> simp [same, waits]

/-- Merging puts in the first occurrences of the waiting names. -/
theorem mergeResolved_eq_mergeAll (resolved waiting : List Str) :
    mergeResolved resolved waiting [] =
      mergeAll ((DepthFirst.firsts resolved).filter (· ∈ waiting)) := by
  induction resolved using List.reverseRecOn with
  | nil => rfl
  | append_singleton names last ih =>
      rw [mergeResolved_concat, DepthFirst.firsts_concat, ih]
      by_cases seen : last ∈ names
      · rw [if_neg (fun both => both.2 seen), if_pos (DepthFirst.mem_firsts.mpr seen)]
      · rw [if_neg (fun member => seen (DepthFirst.mem_firsts.mp member)), List.filter_append]
        by_cases waits : last ∈ waiting
        · have single : [last].filter (· ∈ waiting) = [last] := by simp [waits]
          rw [if_pos ⟨waits, seen⟩, single]
          exact (mergeAll_concat _ last).symm
        · have none : [last].filter (· ∈ waiting) = [] := by simp [waits]
          rw [if_neg (fun both => waits both.1), none, List.append_nil]

/-- Without a cycle the sorted list merges the keys in depth-first order. -/
theorem run_update_op_of_acyclic (acyclic : ¬ Cyclic adj_list) :
    run_update_op adj_list = .ok (mergeAll (resolvedKeys adj_list)) := by
  have unfolded : ∀ name ∈ Keyed.keys adj_list,
      ∃ node, makeGraphNode adj_list (adj_list.length + 1) name = .ok node :=
    fun name _ => unfolded_of_safe (not_leadsToCycle_of_acyclic acyclic name) List.nodup_nil
      (List.nil_subset _) (fun _ impossible => by cases impossible) (Nat.lt_succ_self _)
  obtain ⟨nodes, made⟩ := exists_mapM_eq_ok_iff.mpr unfolded
  have names : nodes.map Graph.Node.name = Keyed.keys adj_list :=
    map_of_mapM made makeGraphNode_name
  obtain ⟨resolved, done, order⟩ := foldlM_depResolve_of_acyclic acyclic
    (fun node member => by
      obtain ⟨name, _, single⟩ := (mem_of_mapM made).mp (List.mem_reverse.mp member)
      rw [makeGraphNode_name single]
      exact single) []
  rw [List.map_reverse, names] at order
  have merged : mergeResolved resolved (Keyed.keys adj_list) [] =
      mergeAll (resolvedKeys adj_list) := by
    rw [mergeResolved_eq_mergeAll, order]
    rfl
  rw [← merged]
  exact except_bind_eq_ok.mpr ⟨nodes, made, except_bind_eq_ok.mpr ⟨_, done, rfl⟩⟩

/-- Names are sorted exactly when none of them depends on itself. -/
theorem run_update_op_iff_acyclic :
    (∃ ordered, run_update_op adj_list = .ok ordered) ↔ ¬ Cyclic adj_list := by
  constructor
  · intro ⟨ordered, sorted⟩ ⟨name, cycle⟩
    obtain ⟨nodes, made, _⟩ := except_bind_eq_ok.mp sorted
    obtain ⟨dep, depends, _⟩ := Relation.TransGen.head'_iff.mp cycle
    have unfolded := exists_mapM_eq_ok_iff.mp ⟨nodes, made⟩ name depends.mem_keys
    exact not_unfolded_of_leadsToCycle ⟨name, .refl, cycle⟩ unfolded
  · intro acyclic
    exact ⟨_, run_update_op_of_acyclic acyclic⟩

end Cycle

end FlexConfig
