import FlexConfig.Manager.Coherence

/-! # Acceptance at startup and acceptance of a candidate

A document is accepted at startup when it is valid, its tree can be built and
ordered, and every update constraint of every node of the tree holds. A candidate
is accepted when its document passes the same checks except the last: constraints
are evaluated for the nodes a patch mentions only, on the tree that the routine has
edited. Here the two are compared.
-/

namespace FlexConfig

open Procedure

section Constraints

/-- The update constraints of the node a path selects hold in a tree. -/
def Passes (env : Env) (root_config : Node) (xpath : Str) : Prop :=
  ∀ schema_node node, env.getSchemaByXPath xpath = .ok (some schema_node) →
    XPath.select root_config xpath = some node →
      ∀ constraint ∈ schema_node.FindAttr Config.PropertyName.UPDATE_CONSTRAINTS,
        env.checkConstraint root_config node.location constraint = .ok true

/-- A path has a schema and selects a node. -/
def Found (env : Env) (root_config : Node) (xpath : Str) : Prop :=
  ∃ schema_node node, env.getSchemaByXPath xpath = .ok (some schema_node) ∧
    XPath.select root_config xpath = some node

/-- The schema of a path can be looked up. -/
def LooksUp (env : Env) (xpath : Str) : Prop := ∃ answer, env.getSchemaByXPath xpath = .ok answer

variable {env : Env} {root_config : Node}

theorem checkConstraints_eq_ok {location : Location} {constraints : List Str} :
    checkConstraints env root_config location constraints = .ok ⟨⟩ ↔
      ∀ constraint ∈ constraints, env.checkConstraint root_config location constraint = .ok true := by
  induction constraints with
  | nil =>
      constructor
      · intro _ constraint impossible
        cases impossible
      · intro _
        rfl
  | cons constraint rest ih =>
      rw [checkConstraints, except_bind_eq_ok, List.forall_mem_cons]
      constructor
      · rintro ⟨holds, evaluated, checked⟩
        cases holds with
        | true => exact ⟨evaluated, ih.mp checked⟩
        | false => cases checked
      · rintro ⟨evaluated, others⟩
        exact ⟨true, evaluated, ih.mpr others⟩

/-- The nodes of an update are all found, and pass. -/
theorem checkUpdates_eq_ok {ordered_nodes_by_xpath : List Str} :
    checkUpdates env root_config ordered_nodes_by_xpath = .ok ⟨⟩ ↔
      ∀ xpath ∈ ordered_nodes_by_xpath,
        Found env root_config xpath ∧ Passes env root_config xpath := by
  induction ordered_nodes_by_xpath with
  | nil =>
      constructor
      · intro _ xpath impossible
        cases impossible
      · intro _
        rfl
  | cons xpath rest ih =>
      rw [checkUpdates, except_bind_eq_ok, List.forall_mem_cons]
      constructor
      · rintro ⟨answer, looked, checked⟩
        cases answer with
        | none => cases checked
        | some schema_node =>
            cases selected : XPath.select root_config xpath with
            | none =>
                simp only [selected] at checked
                cases checked
            | some node =>
                simp only [selected] at checked
                obtain ⟨_, held, others⟩ := except_bind_eq_ok.mp checked
                refine ⟨⟨⟨schema_node, node, looked, selected⟩, ?_⟩, ih.mp others⟩
                intro other_schema other_node looked' selected'
                rw [looked] at looked'
                cases looked'
                rw [selected] at selected'
                cases selected'
                exact checkConstraints_eq_ok.mp held
      · rintro ⟨⟨⟨schema_node, node, looked, selected⟩, passes⟩, others⟩
        refine ⟨some schema_node, looked, ?_⟩
        simp only [selected]
        exact except_bind_eq_ok.mpr ⟨⟨⟩,
          checkConstraints_eq_ok.mpr (passes schema_node node looked selected), ih.mpr others⟩

/-- At startup a node that has no schema or is not found is passed over. -/
theorem checkStartup_eq_ok {ordered_nodes_by_xpath : List Str} :
    checkStartup env root_config ordered_nodes_by_xpath = .ok ⟨⟩ ↔
      ∀ xpath ∈ ordered_nodes_by_xpath, LooksUp env xpath ∧ Passes env root_config xpath := by
  induction ordered_nodes_by_xpath with
  | nil =>
      constructor
      · intro _ xpath impossible
        cases impossible
      · intro _
        rfl
  | cons xpath rest ih =>
      rw [checkStartup, except_bind_eq_ok, List.forall_mem_cons]
      constructor
      · rintro ⟨answer, looked, checked⟩
        cases answer with
        | none =>
            refine ⟨⟨⟨none, looked⟩, ?_⟩, ih.mp checked⟩
            intro schema_node node looked'
            rw [looked] at looked'
            cases looked'
        | some schema_node =>
            cases selected : XPath.select root_config xpath with
            | none =>
                simp only [selected] at checked
                refine ⟨⟨⟨_, looked⟩, ?_⟩, ih.mp checked⟩
                intro other_schema other_node _ selected'
                rw [selected] at selected'
                cases selected'
            | some node =>
                simp only [selected] at checked
                obtain ⟨_, held, others⟩ := except_bind_eq_ok.mp checked
                refine ⟨⟨⟨_, looked⟩, ?_⟩, ih.mp others⟩
                intro other_schema other_node looked' selected'
                rw [looked] at looked'
                cases looked'
                rw [selected] at selected'
                cases selected'
                exact checkConstraints_eq_ok.mp held
      · rintro ⟨⟨⟨answer, looked⟩, passes⟩, others⟩
        refine ⟨answer, looked, ?_⟩
        cases answer with
        | none => exact ih.mpr others
        | some schema_node =>
            cases selected : XPath.select root_config xpath with
            | none => exact ih.mpr others
            | some node =>
                exact except_bind_eq_ok.mpr ⟨⟨⟩,
                  checkConstraints_eq_ok.mpr (passes schema_node node looked selected),
                  ih.mpr others⟩

end Constraints

section Startup

variable {env : Env}

/-- Every check a load makes: the document, its tree, the order of its nodes and their
constraints. -/
def startupChecks (env : Env) (jconfig : Json) : Attempt PUnit := do
  let reloaded ← fReloadNodeConfig env jconfig []
  let ordered_nodes_by_xpath ← NodeDependencyManager.resolve env reloaded.1
  checkStartup env reloaded.1 ordered_nodes_by_xpath

/-- Whether references can be saved does not depend on the index. -/
theorem saveXPathReference_of_other {ordered : List Str} {root_config : Node}
    {index saved : References} (other : References)
    (saves : saveXPathReference env ordered root_config index = .ok saved) :
    ∃ saved', saveXPathReference env ordered root_config other = .ok saved' := by
  unfold saveXPathReference at saves ⊢
  induction ordered generalizing index other with
  | nil => exact ⟨other, rfl⟩
  | cons xpath rest ih =>
      rw [List.foldlM_cons] at saves ⊢
      obtain ⟨next, recorded, saves⟩ := except_bind_eq_ok.mp saves
      obtain ⟨targets, looked, _⟩ := except_bind_eq_ok.mp recorded
      obtain ⟨saved', saves'⟩ := ih (targets.foldl (fun index target => index.record target xpath)
        other) saves
      exact ⟨saved', except_bind_eq_ok.mpr
        ⟨_, except_bind_eq_ok.mpr ⟨targets, looked, rfl⟩, saves'⟩⟩

theorem reload_of_other {jconfig : Json} {index : References} {reloaded : Node × References}
    (other : References) (reload : fReloadNodeConfig env jconfig index = .ok reloaded) :
    ∃ saved, fReloadNodeConfig env jconfig other = .ok (reloaded.1, saved) := by
  obtain ⟨jschema, ordered, schema, valid, built, resolved, saves⟩ :=
    Manager.reload_eq_ok.mp reload
  obtain ⟨saved, saves'⟩ := saveXPathReference_of_other other saves
  exact ⟨saved, Manager.reload_eq_ok.mpr
    ⟨jschema, ordered, schema, valid, built, resolved, saves'⟩⟩

end Startup

section Candidate

variable {env : Env} {patch : Json} {manager : Manager}

/-- A node of a tree that the checks of a patch pass over. -/
def Unmentioned (items : List DiffItem) (xpath : Str) : Prop :=
  mentions (updatePaths items) xpath = false

/-- The checks that making a candidate shares with a load, and those it replaces: the document
of the candidate is valid, its tree can be built, its references saved and its nodes ordered;
every node of the edited tree that the patch mentions is found and passes there. Where the
edited tree is the one built from the candidate's document, startup then accepts that document
exactly when the nodes the patch does not mention pass, too. -/
theorem make_accepts_like_load (making : Manager.Making env patch manager) :
    ∃ index ordered listed,
      fReloadNodeConfig env making.course.json_config [] = .ok (making.reloaded.1, index) ∧
      NodeDependencyManager.resolve env making.reloaded.1 = .ok ordered ∧
      NodeDependencyManager.resolve env making.course.edited = .ok listed ∧
      (∀ xpath ∈ listed, ¬ Unmentioned making.course.items xpath →
        Found env making.course.edited xpath ∧ Passes env making.course.edited xpath) ∧
      (making.course.edited = making.reloaded.1 →
        (startupChecks env making.course.json_config = .ok ⟨⟩ ↔
          ∀ xpath ∈ ordered, Unmentioned making.course.items xpath →
            LooksUp env xpath ∧ Passes env making.reloaded.1 xpath)) := by
  obtain ⟨index, reload⟩ := reload_of_other [] making.reload
  obtain ⟨_, ordered, _, _, _, resolved, _⟩ := Manager.reload_eq_ok.mp making.reload
  obtain ⟨updates, listing, planned⟩ := except_bind_eq_ok.mp making.course.prepared.planned
  obtain ⟨_, checked, _⟩ := except_bind_eq_ok.mp planned
  obtain ⟨listed, resolvedEdited, finished⟩ := except_bind_eq_ok.mp listing
  cases finished
  have checkedMentioned : ∀ xpath ∈ listed, ¬ Unmentioned making.course.items xpath →
      Found env making.course.edited xpath ∧ Passes env making.course.edited xpath := by
    intro xpath member mentioned
    refine checkUpdates_eq_ok.mp checked xpath (List.mem_filter.mpr ⟨member, ?_⟩)
    exact Bool.of_not_eq_false mentioned
  refine ⟨index, ordered, listed, reload, resolved, resolvedEdited, checkedMentioned, ?_⟩
  intro same
  rw [same] at resolvedEdited checkedMentioned
  rw [resolved] at resolvedEdited
  cases resolvedEdited
  have unfolded : startupChecks env making.course.json_config =
      checkStartup env making.reloaded.1 ordered := by
    unfold startupChecks
    rw [reload]
    change (NodeDependencyManager.resolve env making.reloaded.1 >>= _) = _
    rw [resolved]
    rfl
  rw [unfolded, checkStartup_eq_ok]
  constructor
  · intro all xpath member _
    exact all xpath member
  · intro rest xpath member
    by_cases mentioned : Unmentioned making.course.items xpath
    · exact rest xpath member mentioned
    · obtain ⟨⟨schema_node, _, looked, _⟩, passes⟩ := checkedMentioned xpath member mentioned
      exact ⟨⟨_, looked⟩, passes⟩

end Candidate

end FlexConfig

namespace FlexConfig.Sample

/-- Two leaves, one of which is to be there only with the other one. The constraint is
evaluated as its function `xpath` is. -/
def dependentLeaves : Env where
  jschema := container [("a", container [
    ("x", object [("type", text "string"),
      ("update-constraints", .array [text "must(exists(xpath('/a/y')))"])]),
    ("y", object [("type", text "string")])])]
  validate := fun _ _ => true
  regexMatch := fun pattern text => some (pattern == text)
  checkConstraint := fun root location constraint =>
    if constraint = "must(exists(xpath('/a/y')))".toList then do
      let resolved_xpath ← XPath.evaluateXPath location "/a/y".toList
      return (XPath.select root resolved_xpath).isSome
    else return false
  answers := fun _ => true

def dependentConfig : Json := object [("a", object [("x", text "1"), ("y", text "2")])]

/-- A patch that removes the other leaf is accepted, and the document it makes is not accepted
at startup. -/
theorem candidate_refused_at_startup :
    ∃ manager ∈ Manager.reached dependentLeaves dependentConfig [],
      Manager.Reachable dependentLeaves manager ∧
        ∃ after, Manager.makeCandidateConfig dependentLeaves
            (.array [operation "remove" "/a/y" none]) manager = .ok ⟨⟩ after ∧
          startupChecks dependentLeaves after.candidateJson = .error .rejected := by
  have refused : ∃ manager ∈ Manager.reached dependentLeaves dependentConfig [],
      ∃ making ∈ Manager.Making.find dependentLeaves (.array [operation "remove" "/a/y" none])
        manager, startupChecks dependentLeaves making.course.json_config = .error .rejected := by
    decide +kernel
  obtain ⟨manager, reaches, making, _, rejected⟩ := refused
  exact ⟨manager, reaches, Manager.reachedBy_of_reached (fun _ _ _ => trivial) reaches,
    making.result, Manager.Making.make_eq_ok_iff.mpr ⟨making, rfl⟩, rejected⟩

example : ∃ manager ∈ Manager.reached dependentLeaves dependentConfig [],
    ∃ making ∈ Manager.Making.find dependentLeaves (.array [operation "remove" "/a/x" none])
      manager, making.course.edited = making.reloaded.1 ∧
        startupChecks dependentLeaves making.course.json_config = .ok ⟨⟩ := by
  decide +kernel

end FlexConfig.Sample
