import FlexConfig.Ordering.NodesOrdering

/-! # Which nodes an ordering lists

The callers of the dependency manager take its list for all nodes that have a schema:
they check the constraints and send the actions of the listed paths only. The list is
complete exactly where no evaluated dependency leads back to its name and every path of
a node with a schema is printed as it is read. On a cycle the answer is still yes and the
list is empty, or the stack is exhausted.
-/

namespace FlexConfig

open Procedure

variable {env : Env} {config : Node}

/-- A path under which a tree has a node that a schema describes. -/
def HasSchema (env : Env) (config : Node) (xpath : Str) : Prop :=
  ∃ visited ∈ config.nodes, xpath = XPath.toString visited.location ∧
    ∃ schema_node, env.getSchemaByXPath xpath = .ok (some schema_node)

/-- What the callers of `resolve` rely on: a list is complete and has no repetitions, and
a cycle is answered with no. -/
structure ResolvesCompletely (env : Env) (config : Node) : Prop where
  lists : ∀ ordered, NodeDependencyManager.resolve env config = .ok ordered →
    ordered.Nodup ∧ ∀ xpath, xpath ∈ ordered ↔ HasSchema env config xpath
  refuses : ∀ dependencies, getDependencies env config = .ok dependencies →
    Cyclic (evaluateDependencies config dependencies) →
      NodeDependencyManager.resolve env config = .error .rejected

theorem sorts_iff_acyclic {dependencies : Adjacency}
    (collected : getDependencies env config = .ok dependencies) :
    Sorts env config ↔ ¬ Cyclic (evaluateDependencies config dependencies) := by
  rw [← run_update_op_iff_acyclic]
  constructor
  · intro ⟨other, ordered, collected', sorted⟩
    cases collected.symm.trans collected'
    exact ⟨ordered, sorted⟩
  · intro ⟨ordered, sorted⟩
    exact ⟨dependencies, ordered, collected, sorted⟩

/-- Resolving never answers no. -/
theorem resolve_avoids_rejected {dependencies : Adjacency}
    (collected : getDependencies env config = .ok dependencies) :
    NodeDependencyManager.resolve env config ≠ .error .rejected := by
  intro rejected
  rcases except_bind_eq_error.mp rejected with failed | ⟨_, _, answered⟩
  · cases collected.symm.trans failed
  · split at answered <;> cases answered

/-- An orderable path is one that was printed from a node's path read back. -/
theorem orderable_iff {xpath : Str} :
    Orderable env config xpath ↔
      ∃ printed, HasSchema env config printed ∧ xpath = XPath.toString (XPath.parse printed) := by
  constructor
  · intro ⟨visited, member, schema_node, looked, named⟩
    refine ⟨_, ⟨visited, member, rfl, schema_node, looked⟩, ?_⟩
    rw [named, getSchemaByXPath_path looked]
  · intro ⟨printed, ⟨visited, member, names, schema_node, looked⟩, same⟩
    rw [names] at looked same
    refine ⟨visited, member, schema_node, looked, ?_⟩
    rw [same, getSchemaByXPath_path looked]

/-- The orderable paths are the paths of the nodes exactly when these are read back as
they were printed. -/
theorem orderable_iff_hasSchema :
    (∀ xpath, Orderable env config xpath ↔ HasSchema env config xpath) ↔
      ∀ xpath, HasSchema env config xpath → XPath.toString (XPath.parse xpath) = xpath := by
  constructor
  · intro same xpath schema
    obtain ⟨printed, _, named⟩ := orderable_iff.mp ((same xpath).mpr schema)
    rw [named]
    exact XPath.toString_parse_toString printed
  · intro kept xpath
    rw [orderable_iff]
    constructor
    · intro ⟨printed, schema, named⟩
      rw [named, kept printed schema]
      exact schema
    · intro schema
      exact ⟨xpath, schema, (kept xpath schema).symm⟩

/-- Resolving keeps its promise to its callers exactly where the evaluated dependencies
have no cycle and the path of every node with a schema is printed as it is read. -/
theorem resolves_completely_iff (env : Env) (config : Node) :
    ResolvesCompletely env config ↔
      ∀ dependencies, getDependencies env config = .ok dependencies →
        ¬ Cyclic (evaluateDependencies config dependencies) ∧
          ∀ xpath, HasSchema env config xpath → XPath.toString (XPath.parse xpath) = xpath := by
  constructor
  · intro complete dependencies collected
    have acyclic : ¬ Cyclic (evaluateDependencies config dependencies) := fun cycle =>
      resolve_avoids_rejected collected (complete.refuses dependencies collected cycle)
    refine ⟨acyclic, orderable_iff_hasSchema.mp fun xpath => ?_⟩
    have sorts := (sorts_iff_acyclic collected).mpr acyclic
    obtain ⟨ordered, sorted⟩ := run_update_op_iff_acyclic.mpr acyclic
    have resolved : NodeDependencyManager.resolve env config = .ok ordered := by
      refine except_bind_eq_ok.mpr ⟨dependencies, collected, ?_⟩
      split
      · next _ run =>
          cases sorted.symm.trans run
          rfl
      · next refused => cases sorted.symm.trans refused
      · next overflowed => cases sorted.symm.trans overflowed
    rw [← (resolve_spec resolved).2.1 sorts xpath]
    exact (complete.lists ordered resolved).2 xpath
  · intro safe
    refine ⟨fun ordered resolved => ?_, fun dependencies collected cycle => ?_⟩
    · obtain ⟨dependencies, collected, _⟩ := except_bind_eq_ok.mp resolved
      obtain ⟨acyclic, kept⟩ := safe dependencies collected
      obtain ⟨unique, listed, _⟩ := resolve_spec resolved
      refine ⟨unique, fun xpath => ?_⟩
      rw [listed ((sorts_iff_acyclic collected).mpr acyclic) xpath]
      exact orderable_iff_hasSchema.mpr kept xpath
    · exact ((safe dependencies collected).1 cycle).elim

end FlexConfig

namespace FlexConfig.Sample

/-- Two leaves, each of which is to be updated after the other one. -/
def entangledLeaves : Env := deployment
  (container [
    ("a", object [("type", text "string"), ("update-dependencies", .array [text "/b"])]),
    ("b", object [("type", text "string"), ("update-dependencies", .array [text "/a"])])])
  fun _ => true

def entangledConfig : Node := .composite [("a".toList, .leaf []), ("b".toList, .leaf [])]

/-- Of two nodes that depend on each other none is listed, and the answer is yes. -/
theorem entangled_nodes_dropped : ¬ ∀ env config, ResolvesCompletely env config := by
  intro complete
  have dropped : NodeDependencyManager.resolve entangledLeaves entangledConfig = .ok [] := by
    decide +kernel
  have described : ∃ answer ∈ (entangledLeaves.getSchemaByXPath "/a".toList).toOption,
      answer.isSome = true := by
    decide +kernel
  have present : ⟨["a".toList], .leaf []⟩ ∈ entangledConfig.nodes := by decide +kernel
  obtain ⟨answer, looked, some⟩ := described
  obtain ⟨schema_node, found⟩ := Option.isSome_iff_exists.mp some
  have schema : HasSchema entangledLeaves entangledConfig "/a".toList :=
    ⟨_, present, by decide, schema_node, by rw [Procedure.mem_toOption.mp looked, found]⟩
  have listed := ((complete _ _).lists [] dropped).2 "/a".toList
  exact List.not_mem_nil (listed.mpr schema)

end FlexConfig.Sample
