import FlexConfig.Constraint.Logic
import FlexConfig.Manager.Progress

/-! # The constraints of an update

A patch is accepted where its update passes, and that where the constraints of the updated nodes
hold. Evaluated by their checker, constraints that are written in the language, and whose flags
tell their value, hold where they are true by its logic.
-/

namespace FlexConfig

open Procedure Constraint

section Checking

/-- Surroundings whose constraints are evaluated by the checker. -/
def Env.checking (env : Env) (regexSearch : (pattern text : Str) → Option (Option Str)) : Env :=
  { env with checkConstraint := fun root_config location constraint =>
      ConstraintChecker.validate ⟨env, regexSearch, root_config⟩ location constraint }

/-- A constraint has a value by its logic, which its flags tell. -/
def Legible (checker : ConstraintChecker) (location : Location) (constraint : Str)
    (value : Bool) : Prop :=
  ∃ statement : Statement, statement.Spelled constraint ∧
    statement.value checker location = some value ∧ statement.Told checker location value

theorem Legible.validate {checker : ConstraintChecker} {location : Location} {constraint : Str}
    {value : Bool} (legible : Legible checker location constraint value) :
    checker.validate location constraint = .ok value := by
  obtain ⟨statement, spelled, has, told⟩ := legible
  rw [spelled.validate has, Statement.told_iff.mp told]

variable {env : Env} {regexSearch : (pattern text : Str) → Option (Option Str)}
  {root_config : Node} {xpath : Str}

/-- Every update constraint of a node, where it has a schema and is found, is legible with a
value of the kind asked for. -/
def ConstraintsRead (env : Env) (regexSearch : (pattern text : Str) → Option (Option Str))
    (root_config : Node) (xpath : Str) (kind : Bool → Prop) : Prop :=
  ∀ schema_node node, (env.checking regexSearch).getSchemaByXPath xpath = .ok (some schema_node) →
    XPath.select root_config xpath = some node →
      ∀ constraint ∈ schema_node.FindAttr Config.PropertyName.UPDATE_CONSTRAINTS,
        ∃ value, kind value ∧ Legible ⟨env, regexSearch, root_config⟩ node.location constraint value

/-- A node whose constraints are legible passes where they are true. -/
theorem passes_checking_iff (legible : ConstraintsRead env regexSearch root_config xpath fun _ => True) :
    Passes (env.checking regexSearch) root_config xpath ↔
      ConstraintsRead env regexSearch root_config xpath (· = true) := by
  constructor
  · intro passes schema_node node looked selected constraint member
    obtain ⟨value, _, reads⟩ := legible schema_node node looked selected constraint member
    have holds := passes schema_node node looked selected constraint member
    exact ⟨value, Except.ok.inj (reads.validate.symm.trans holds), reads⟩
  · intro true_ schema_node node looked selected constraint member
    obtain ⟨value, rfl, reads⟩ := true_ schema_node node looked selected constraint member
    exact reads.validate

end Checking

section Acceptance

/-- A call whose patch leads to a tree is accepted exactly where it comes to the edit, the update
completes and the document can be loaded. -/
theorem Manager.exists_make_eq_ok_iff {env : Env} {manager : Manager} {patch document : Json}
    {root target : Node} {items : List DiffItem} (inOrder : root.Ordered)
    (admitted : Admitted env manager patch root)
    (leads : Leads env patch manager.runningJson root items document target) :
    (∃ after, makeCandidateConfig env patch manager = .ok ⟨⟩ after) ↔
      UpdateBegins env manager.site patch manager.runningJson items (manager.runningDraft root) ∧
        UpdateCompletes env manager.site manager.runningJson items (manager.runningDraft root)
          document target ∧
        ∃ reloaded, fReloadNodeConfig env document [] = .ok reloaded := by
  have routine : (∃ json_config draft, fMakeCandidateConfigInternal env manager.site patch
        manager.runningJson (manager.runningDraft root) = .ok json_config draft) ↔ _ ∧ _ :=
    exists_routine_eq_ok_iff leads inOrder
  rw [← and_assoc, ← routine]
  constructor
  · rintro ⟨after, made⟩
    obtain ⟨making, rfl⟩ := Making.make_eq_ok_iff.mp made
    cases admitted.unique making.admitted
    obtain ⟨_, same, _⟩ := leads.course inOrder making.course
    obtain ⟨saved, reload⟩ := reload_of_other [] making.reload
    rw [same] at reload
    exact ⟨⟨_, _, Course.routine_eq_ok_iff.mpr ⟨making.course, rfl, rfl⟩⟩, _, reload⟩
  · rintro ⟨⟨json_config, draft, returned⟩, reloaded, reload⟩
    obtain ⟨course, rfl, rfl⟩ := Course.routine_eq_ok_iff.mp returned
    obtain ⟨_, same, _⟩ := leads.course inOrder course
    obtain ⟨saved, reload⟩ := reload_of_other course.saved reload
    rw [← same] at reload
    exact ⟨_, Making.make_eq_ok_iff.mpr ⟨⟨root, course, _, admitted, reload⟩, rfl⟩⟩

variable {env : Env} {regexSearch : (pattern text : Str) → Option (Option Str)} {manager : Manager}
  {patch document : Json} {root target : Node} {items : List DiffItem}

/-- What a patch that leads to a tree is accepted for: its removal passes and all deletions are
answered; in the tree, the nodes can be ordered, and every updated node is found, has constraints
that are true by their logic and references that can be evaluated; all updates are answered, and
the document can be loaded. -/
structure Manager.Accepts (env : Env) (regexSearch : (pattern text : Str) → Option (Option Str))
    (manager : Manager) (patch : Json) (root : Node) (items : List DiffItem) (document : Json)
    (target : Node) : Prop where
  begins : UpdateBegins (env.checking regexSearch) manager.site patch manager.runningJson items
    (manager.runningDraft root)
  resolves : ∃ ordered, NodeDependencyManager.resolve (env.checking regexSearch) target = .ok ordered
  finds : ∀ xpath, IsUpdated (env.checking regexSearch) items target xpath →
    Found (env.checking regexSearch) target xpath
  holds : ∀ xpath, IsUpdated (env.checking regexSearch) items target xpath →
    ConstraintsRead env regexSearch target xpath (· = true)
  evaluates : ∀ xpath, IsUpdated (env.checking regexSearch) items target xpath →
    ∃ targets, referenceTargets (env.checking regexSearch) target xpath = .ok targets
  posted : Replied (env.checking regexSearch) (updateAction (env.checking regexSearch)
      manager.runningJson document) (updatedNodes (env.checking regexSearch) items target)
    (manager.posts.length + messageCount (deleteAction (env.checking regexSearch)
      manager.configFile) (removedNodes (env.checking regexSearch) items root))
  loads : ∃ reloaded, fReloadNodeConfig (env.checking regexSearch) document [] = .ok reloaded

end Acceptance

end FlexConfig

namespace FlexConfig.Sample

open Procedure Constraint

/-- The comparison in `must(exists(xpath('/a/y')))`. -/
def otherExists : Comparison := ⟨.exists_func (.xpath (.string "/a/y".toList)), .done⟩

theorem otherExists_spelled :
    (Statement.must otherExists).Spelled "must(exists(xpath('/a/y')))".toList := by
  refine ⟨"(exists(xpath('/a/y')))".toList, "exists(xpath('/a/y')))".toList, ")".toList, ")".toList,
    by decide, by decide, ?_, rfl, by decide⟩
  refine ⟨"(xpath('/a/y')))".toList, "xpath('/a/y')))".toList, "))".toList, by decide, by decide, ?_,
    by decide⟩
  exact ⟨"('/a/y')))".toList, "'/a/y')))".toList, ")))".toList, by decide, by decide,
    ⟨"/a/y')))".toList, "')))".toList, by decide, ⟨_, rfl, rfl, rfl⟩, by decide⟩, by decide⟩

/-- The constraints of a node are that one, and it is true. -/
def RequiresOther (env : Env) (root_config : Node) (xpath : Str) : Prop :=
  ∀ schema_node ∈ (env.getSchemaByXPath xpath).toOption.join,
    ∀ node ∈ XPath.select root_config xpath,
      ∀ constraint ∈ schema_node.FindAttr Config.PropertyName.UPDATE_CONSTRAINTS,
        constraint = "must(exists(xpath('/a/y')))".toList ∧
          otherExists.value ⟨dependentLeaves, fun _ _ => none, root_config⟩ node.location = some true ∧
          .compared false ∉
            otherExists.steps ⟨dependentLeaves, fun _ _ => none, root_config⟩ node.location

instance (env : Env) (root_config : Node) (xpath : Str) :
    Decidable (RequiresOther env root_config xpath) :=
  inferInstanceAs (Decidable (∀ _ ∈ _, ∀ _ ∈ _, ∀ _ ∈ _, _))

/-- The two leaves, with their constraint evaluated by the checker. -/
def checkedLeaves : Env := dependentLeaves.checking fun _ _ => none

def addDependent : Json := .array [operation "add" "/a/x" (some (text "1"))]

end FlexConfig.Sample
