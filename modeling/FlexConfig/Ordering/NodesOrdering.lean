import FlexConfig.Ordering.TopoSort
import FlexConfig.Schema.Lookup

/-! # Ordering the nodes of a configuration

The dependency manager collects, for every node of a tree that has a schema, the
update dependencies its schema states, evaluates the wildcards, key selectors and
node references in them against the tree, and sorts the nodes so that a node comes
after those it depends on.
-/

namespace FlexConfig

open Procedure
open XPath (nameOf parentNameOf)

def REFERENCE_XPATH_NODE : Str := XPath.SEPARATOR ++ XPath.REFERENCE_TOKEN
def WILDCARD_XPATH_NODE : Str := XPath.SEPARATOR ++ XPath.WILDCARD_TOKEN

section Resolvers

/-- `SubnodeChildsVisitor::visit`: the parent is compared by its name only, and names
are collected at the front. -/
def SubnodeChildsVisitor.visit (parent_name : Str) (names : List Str) (visited : Located) :
    Bool × List Str :=
  (true,
    if parentNameOf visited.location = parent_name then nameOf visited.location :: names else names)

/-- The names collected below a node. -/
def getAllSubnodes (start : Located) : List Str :=
  start.node.accept (SubnodeChildsVisitor.visit (nameOf start.location)) start.location []

/-- The visit the three resolvers share: consume the awaited tokens in the order in
which nodes of these names are met, and collect below the node of the last. -/
def consumeToken (state : List Str × List Str) (visited : Located) : Bool × List Str × List Str :=
  match state.1 with
  | [] => (true, state)
  | token :: rest =>
    if nameOf visited.location ≠ token then (true, state)
    else if rest = [] then (false, [], getAllSubnodes visited)
    else (true, rest, state.2)

/-- The names below the node that the tokens of a path lead to. -/
def subnodesBelow (root : Node) (pre : Str) : List Str :=
  (root.accept consumeToken [] (XPath.parse pre, [])).2

/-- What stands before a token and what stands after it, past `skip` characters. The
callers have checked that the token occurs. -/
def cutAt (token : Str) (skip : Nat) (xpath : Str) : Str × Str :=
  match Text.find token xpath with
  | some position => (xpath.take position, xpath.drop (position + skip))
  | none => (xpath, [])

/-- A subnode's name between what stands before and after the resolved token. -/
def composeXPath (pre post subnode : Str) : Str :=
  let resolved := pre ++ XPath.SEPARATOR ++ subnode
  if post = [] then resolved
  else if resolved.length > 1 ∧ resolved.getLast? ≠ some '/' ∧ post.head? ≠ some '/' then
    resolved ++ XPath.SEPARATOR ++ post
  else resolved ++ post

def NodeReferenceResolver.getEvaluatedXpath (root : Node) (xpath_to_resolve : Str) : Option Str :=
  let parts := cutAt REFERENCE_XPATH_NODE 2 xpath_to_resolve
  (subnodesBelow root parts.1).head?.map (composeXPath parts.1 parts.2)

def KeySelectorResolver.getEvaluatedXpath (root : Node) (xpath_to_resolve : Str) : List Str :=
  let parts := cutAt XPath.ITEM_NAME_SUBSCRIPT 7 xpath_to_resolve
  (subnodesBelow root parts.1).reverse.map (composeXPath parts.1 parts.2)

def WildcardDependencyResolver.getEvaluatedXpath (root : Node) (xpath_to_resolve : Str) :
    List Str :=
  let parts := cutAt WILDCARD_XPATH_NODE 3 xpath_to_resolve
  (subnodesBelow root parts.1).reverse.map fun subnode =>
    parts.1 ++ XPath.SEPARATOR ++ subnode ++
      if parts.2 = [] then [] else XPath.SEPARATOR ++ parts.2

end Resolvers

section Evaluate

/-- The paths a dependency with a wildcard evaluates to. -/
def evaluateWildcard (root : Node) (dep : Str) : List Str :=
  if Text.contains WILDCARD_XPATH_NODE dep then
    (WildcardDependencyResolver.getEvaluatedXpath root dep).flatMap fun resolved =>
      let keyed := Text.contains XPath.ITEM_NAME_SUBSCRIPT resolved
      let referring := Text.contains REFERENCE_XPATH_NODE resolved
      if !keyed && !referring then [resolved]
      else
        (if keyed then
          (KeySelectorResolver.getEvaluatedXpath root resolved).filter fun path =>
            !Text.contains REFERENCE_XPATH_NODE path
        else []) ++
        if referring then (NodeReferenceResolver.getEvaluatedXpath root resolved).toList else []
  else []

/-- The paths a dependency with a key selector evaluates to, and the path that is
evaluated further: the last of them. A path with a node reference is not replaced. -/
def evaluateKeySelector (root : Node) (dep : Str) : List Str × Str :=
  if Text.contains XPath.ITEM_NAME_SUBSCRIPT dep then
    (KeySelectorResolver.getEvaluatedXpath root dep).foldl (fun state resolved =>
      if Text.contains REFERENCE_XPATH_NODE state.2 then state
      else (state.1 ++ [resolved], resolved)) ([], dep)
  else ([], dep)

/-- The paths a dependency stands for in a tree; itself where nothing is found. -/
def evaluateDependency (root : Node) (dep : Str) : List Str :=
  let wildcards := evaluateWildcard root dep
  if wildcards ≠ [] then wildcards
  else
    let (selected, xpath) := evaluateKeySelector root dep
    let referred :=
      if Text.contains REFERENCE_XPATH_NODE xpath then
        (NodeReferenceResolver.getEvaluatedXpath root xpath).toList
      else []
    if selected ++ referred = [] then [dep] else selected ++ referred

/-- Replace every stated dependency by the paths it stands for. -/
def evaluateDependencies (root : Node) (stated : Adjacency) : Adjacency :=
  stated.map fun entry =>
    (entry.1, (entry.2.flatMap (evaluateDependency root)).foldl (fun set dep => Keyed.add dep set)
      [])

end Evaluate

variable (env : Env)

/-- The entry one node gives: the dependencies its schema states are added to those of
the same path. -/
def addDependencies (schema_node : SchemaNode) (dependencies : Adjacency) : Adjacency :=
  let xpath_schema_node := XPath.toString schema_node.path
  let known := (Keyed.find xpath_schema_node dependencies).getD []
  Keyed.insert xpath_schema_node
    ((schema_node.FindAttr Config.PropertyName.UPDATE_DEPENDENCIES).foldl
      (fun set dep => Keyed.add dep set) known) dependencies

/-- `DependencyGetterVisitior::visit`. -/
def DependencyGetter.visit (state : Attempt Adjacency) (visited : Located) :
    Bool × Attempt Adjacency :=
  (true, do
    let dependencies ← state
    match ← env.getSchemaByXPath (XPath.toString visited.location) with
    | none => return dependencies
    | some schema_node => return addDependencies schema_node dependencies)

def getDependencies (config : Node) : Attempt Adjacency :=
  config.accept (DependencyGetter.visit env) [] (.ok [])

/-- `NodeDependencyManager::resolve`. The result of sorting is not looked at: a refused
dependency leaves the list of nodes empty and the answer is still yes. -/
def NodeDependencyManager.resolve (config : Node) : Attempt (List Str) := do
  let not_resolved_dependencies ← getDependencies env config
  match run_update_op (evaluateDependencies config not_resolved_dependencies) with
  | .ok ordered_cmds => return ordered_cmds
  | .error (.refused _) => return []
  | .error .overflow => .error .crashed

section Members

variable {env}

/-- A path under which a node of a tree is ordered: the node has a schema. -/
def Orderable (env : Env) (config : Node) (xpath : Str) : Prop :=
  ∃ visited ∈ config.nodes, ∃ schema_node,
    env.getSchemaByXPath (XPath.toString visited.location) = .ok (some schema_node) ∧
      xpath = XPath.toString schema_node.path

/-- The paths under which the nodes of a tree are ordered. -/
def orderablePaths (env : Env) (config : Node) : List Str :=
  config.nodes.filterMap fun visited =>
    match env.getSchemaByXPath (XPath.toString visited.location) with
    | .ok (some schema_node) => some (XPath.toString schema_node.path)
    | _ => none

theorem mem_orderablePaths {config : Node} {xpath : Str} :
    xpath ∈ orderablePaths env config ↔ Orderable env config xpath := by
  unfold orderablePaths Orderable
  rw [List.mem_filterMap]
  refine exists_congr fun visited => and_congr_right fun _ => ?_
  split
  · next schema_node looked =>
      simp only [looked, Option.some.injEq, Except.ok.injEq, exists_eq_left', eq_comm]
  · next missing =>
      refine iff_of_false nofun ?_
      rintro ⟨schema_node, looked, _⟩
      exact missing schema_node looked

instance (config : Node) (xpath : Str) : Decidable (Orderable env config xpath) :=
  decidable_of_iff _ mem_orderablePaths

/-- The dependencies of a tree can be sorted. -/
def Sorts (env : Env) (config : Node) : Prop :=
  ∃ dependencies ordered, getDependencies env config = .ok dependencies ∧
    run_update_op (evaluateDependencies config dependencies) = .ok ordered

instance (config : Node) : Decidable (Sorts env config) :=
  match collected : getDependencies env config with
  | .error _ => isFalse fun ⟨_, _, other, _⟩ => by cases collected.symm.trans other
  | .ok dependencies =>
    match sorted : run_update_op (evaluateDependencies config dependencies) with
    | .error _ => isFalse fun ⟨_, _, other, run⟩ => by
        cases collected.symm.trans other
        cases sorted.symm.trans run
    | .ok ordered => isTrue ⟨dependencies, ordered, collected, sorted⟩

theorem keys_evaluateDependencies (config : Node) (stated : Adjacency) :
    Keyed.keys (evaluateDependencies config stated) = Keyed.keys stated := by
  simp [Keyed.keys, evaluateDependencies]

theorem mem_keys_addDependencies {schema_node : SchemaNode} {dependencies : Adjacency}
    {xpath : Str} :
    xpath ∈ Keyed.keys (addDependencies schema_node dependencies) ↔
      xpath = XPath.toString schema_node.path ∨ xpath ∈ Keyed.keys dependencies :=
  Keyed.mem_keys_insert

private theorem foldl_visit_error (reason : Halt) (nodes : List Located) :
    nodes.foldl (fun state visited => (DependencyGetter.visit env state visited).2)
      (.error reason) = .error reason := by
  induction nodes with
  | nil => rfl
  | cons visited rest ih => exact ih

private theorem mem_keys_foldl_visit {nodes : List Located} {before after : Adjacency}
    (collected : nodes.foldl (fun state visited => (DependencyGetter.visit env state visited).2)
      (.ok before) = .ok after) {xpath : Str} :
    xpath ∈ Keyed.keys after ↔ xpath ∈ Keyed.keys before ∨
      ∃ visited ∈ nodes, ∃ schema_node,
        env.getSchemaByXPath (XPath.toString visited.location) = .ok (some schema_node) ∧
          xpath = XPath.toString schema_node.path := by
  induction nodes generalizing before with
  | nil =>
      cases collected
      simp
  | cons visited rest ih =>
      rw [List.foldl_cons] at collected
      cases looked : env.getSchemaByXPath (XPath.toString visited.location) with
      | error reason =>
          have stopped : (DependencyGetter.visit env (.ok before) visited).2 = .error reason := by
            unfold DependencyGetter.visit
            exact except_bind_eq_error.mpr (Or.inr ⟨before, rfl,
              except_bind_eq_error.mpr (Or.inl looked)⟩)
          rw [stopped, foldl_visit_error] at collected
          cases collected
      | ok answer =>
          cases answer with
          | none =>
              have kept : (DependencyGetter.visit env (.ok before) visited).2 = .ok before := by
                unfold DependencyGetter.visit
                exact except_bind_eq_ok.mpr ⟨before, rfl,
                  except_bind_eq_ok.mpr ⟨none, looked, rfl⟩⟩
              rw [kept] at collected
              rw [ih collected]
              simp [looked]
          | some schema_node =>
              have added : (DependencyGetter.visit env (.ok before) visited).2 =
                  .ok (addDependencies schema_node before) := by
                unfold DependencyGetter.visit
                exact except_bind_eq_ok.mpr ⟨before, rfl,
                  except_bind_eq_ok.mpr ⟨some schema_node, looked, rfl⟩⟩
              rw [added] at collected
              rw [ih collected, mem_keys_addDependencies]
              simp [looked, or_assoc, or_left_comm]

/-- The dependencies collected from a tree are those of its orderable paths. -/
theorem mem_keys_getDependencies {config : Node} {dependencies : Adjacency}
    (collected : getDependencies env config = .ok dependencies) {xpath : Str} :
    xpath ∈ Keyed.keys dependencies ↔ Orderable env config xpath := by
  unfold getDependencies at collected
  rw [Node.accept_eq_foldl (fun _ _ => rfl)] at collected
  rw [mem_keys_foldl_visit collected]
  simp [Keyed.keys, Orderable, Node.nodes]

/-- A resolved tree whose dependencies can be sorted has every orderable path once; where they
cannot be sorted, the list is empty. -/
theorem resolve_spec {config : Node} {ordered : List Str}
    (resolved : NodeDependencyManager.resolve env config = .ok ordered) :
    ordered.Nodup ∧ (Sorts env config → ∀ xpath, xpath ∈ ordered ↔ Orderable env config xpath) ∧
      (¬ Sorts env config → ordered = []) := by
  obtain ⟨dependencies, collected, resolved⟩ := except_bind_eq_ok.mp resolved
  split at resolved
  · next sorted run =>
      cases resolved
      obtain ⟨unique, members⟩ := run_update_op_spec run
      refine ⟨unique, fun _ xpath => ?_, fun unsorted => ?_⟩
      · rw [members, keys_evaluateDependencies, mem_keys_getDependencies collected]
      · exact absurd ⟨dependencies, _, collected, run⟩ unsorted
  · next refused =>
      cases resolved
      refine ⟨List.nodup_nil, ?_, fun _ => rfl⟩
      rintro ⟨dependencies', sorted, collected', run⟩
      rw [collected] at collected'
      cases collected'
      rw [refused] at run
      cases run
  · cases resolved

end Members

end FlexConfig
