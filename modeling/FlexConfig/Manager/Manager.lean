import FlexConfig.Manager.Candidate

/-! # The configuration manager

The manager holds the running configuration and at most one candidate, each as a
tree and as a JSON document, two copies of the reference index, and the
configuration file. A client makes a candidate from a patch of the running
configuration, and then applies or cancels it; a candidate can also be made anew
while one is pending.

An operation that answers `false` halts with `rejected`. An operation that raises is
answered with an error by the server that called it, and the manager goes on from
the state it was left in; a process that exited or crashed goes nowhere.
-/

namespace FlexConfig

open Procedure

/-- The state of the manager. A null document stands for one that is not set, as in the
stores of the two documents, and a configuration file that holds no JSON is `none`. -/
structure Manager where
  configFile : Option Json
  runningConfig : Option Node
  runningJson : Json
  candidateConfig : Option Node
  candidateJson : Json
  isCandidateConfigReady : Bool
  runningReferences : References
  candidateReferences : References
  posts : Log
  deriving DecidableEq

/-- How the file operations of an apply end: whether the temporary file opens, takes the
text, has it when it is closed, and can be renamed. -/
structure FileOutcome where
  opens : Bool
  writes : Bool
  flushes : Bool
  renames : Bool

/-- All file operations succeed. -/
def FileOutcome.success : FileOutcome := ⟨true, true, true, true⟩

/-- The operations of the manager. -/
abbrev Managing := EStateM Halt Manager

/-- `RunningJsonConfig::get` and `CandidateJsonConfig::get`. -/
def storedJson (jconfig : Json) : Attempt Json :=
  if jconfig = .null then .error .raised else .ok jconfig

/-- Dereference a tree. -/
def deref (config : Option Node) : Attempt Node := config.elim (.error .crashed) .ok

variable (env : Env)

/-- `fValidatePatch`: whether a patch differs from the computed difference to what it
produces. -/
def fValidatePatch (patch jconfig : Json) : Attempt Bool := do
  let diff_patch ← jconfig.patch patch
  return decide (patch ≠ jconfig.diff diff_patch)

/-- `fReloadNodeConfig`: the tree of a document, and the index with its references. -/
def fReloadNodeConfig (jconfig : Json) (index : References) : Attempt (Node × References) := do
  let jschema ← env.loadedSchema
  if env.validate jconfig jschema then do
    let root_config ← buildTree env jconfig
    let ordered_nodes_by_xpath ← NodeDependencyManager.resolve env root_config
    let saved ← saveXPathReference env ordered_nodes_by_xpath root_config index
    return (root_config, saved)
  else .error .rejected

namespace Manager

/-- What the routine that makes a candidate reads of the manager. -/
def site (manager : Manager) : Site :=
  ⟨manager.configFile, manager.runningConfig, manager.runningJson⟩

/-- Run on a copy of the running tree, which is thrown away. -/
def onRunningCopy (root_node_candidate_config : Node) (body : EStateM Halt Draft Json) : Managing Json :=
  focus (fun manager =>
      ⟨root_node_candidate_config, manager.candidateReferences, manager.posts⟩)
    (fun draft manager =>
      { manager with candidateReferences := draft.references, posts := draft.posts }) body

/-- Run on the candidate tree itself. -/
def onCandidate (candidate_config : Node) (body : EStateM Halt Draft Json) : Managing Json :=
  focus (fun manager => ⟨candidate_config, manager.candidateReferences, manager.posts⟩)
    (fun draft manager =>
      { manager with
        candidateConfig := some draft.nodeConfig
        candidateReferences := draft.references
        posts := draft.posts }) body

/-- `Config::Manager::makeCandidateConfig`. -/
def makeCandidateConfig (patch : Json) : Managing PUnit := do
  let manager ← get
  let running_config ← attempt (deref manager.runningConfig)
  let running_jconfig ← attempt (storedJson manager.runningJson)
  let invalid ← attempt (fValidatePatch patch running_jconfig)
  if invalid then throw .rejected
  else do
    let candidate_jconfig ← onRunningCopy (getNodeConfigCopy running_config)
      (fMakeCandidateConfigInternal env manager.site patch running_jconfig)
    let updated ← get
    let reloaded ← attempt (fReloadNodeConfig env candidate_jconfig updated.candidateReferences)
    set { updated with
      candidateConfig := some reloaded.1
      candidateJson := candidate_jconfig
      isCandidateConfigReady := true
      runningReferences := reloaded.2
      candidateReferences := reloaded.2 }

/-- `Config::Manager::applyCandidateConfig`. Whether the text reached the temporary file is
not looked at once it was written. -/
def applyCandidateConfig (files : FileOutcome) : Managing PUnit := do
  let manager ← get
  if !manager.isCandidateConfigReady || !files.opens then throw .rejected
  else do
    let candidate_jconfig ← attempt (storedJson manager.candidateJson)
    if !files.writes || !files.renames then throw .rejected
    else
      set { manager with
        configFile := if files.flushes then some candidate_jconfig else none
        runningConfig := manager.candidateConfig
        runningJson := candidate_jconfig
        candidateConfig := none
        candidateJson := .null
        isCandidateConfigReady := false }

/-- Give every operation of a computed patch that has no value the value the document has at
its path. -/
def fillRemoved : List DiffItem → (candidate_jconfig : Json) → Attempt (List DiffItem × Json)
  | [], candidate_jconfig => .ok ([], candidate_jconfig)
  | item :: rest, candidate_jconfig => do
    if item.value.isSome then do
      let (others, final) ← fillRemoved rest candidate_jconfig
      return (item :: others, final)
    else do
      let pointer ← Json.Pointer.parse item.path
      let next ← candidate_jconfig.touched pointer
      let value ← candidate_jconfig.pointed pointer
      let (others, final) ← fillRemoved rest next
      return ({ item with value := some value } :: others, final)

/-- The patch that takes a candidate back to the running document, and the candidate document
it is applied to. -/
def rollbackPatch (manager : Manager) : Attempt (Json × Json) := do
  let candidate_jconfig ← storedJson manager.candidateJson
  let running_jconfig ← storedJson manager.runningJson
  let new_jconfig ← candidate_jconfig.patch (candidate_jconfig.diff running_jconfig)
  let jschema ← env.loadedSchema
  if env.validate new_jconfig jschema then do
    let (items, candidate_jconfig) ← fillRemoved (candidate_jconfig.diffItems running_jconfig [])
      candidate_jconfig
    return (.array (items.map DiffItem.toJson), candidate_jconfig)
  else .error .rejected

/-- `Config::Manager::cancelCandidateConfig`. A refused rollback puts the candidate's index
back, and not its tree. -/
def cancelCandidateConfig : Managing PUnit := do
  let manager ← get
  if !manager.isCandidateConfigReady then throw .rejected
  else do
    let (patch, candidate_jconfig) ← attempt (rollbackPatch env manager)
    let candidate_config ← attempt (deref manager.candidateConfig)
    let _ ← compensated (· = .rejected)
      (modify fun failed =>
        { failed with candidateReferences := manager.candidateReferences })
      (onCandidate candidate_config
        (fMakeCandidateConfigInternal env manager.site patch candidate_jconfig))
    modify fun cancelled =>
      { cancelled with
        candidateConfig := none
        candidateJson := .null
        isCandidateConfigReady := false }

/-- The calls a client can make. -/
inductive Op where
  | makeCandidateConfig (patch : Json)
  | applyCandidateConfig (files : FileOutcome)
  | cancelCandidateConfig

/-- Run one call. -/
def run : Op → Managing PUnit
  | .makeCandidateConfig patch => makeCandidateConfig env patch
  | .applyCandidateConfig files => applyCandidateConfig files
  | .cancelCandidateConfig => cancelCandidateConfig env

/-- The file operations of a call succeed. -/
def FilesSucceed (_ : Manager) : Op → Prop
  | .makeCandidateConfig _ => True
  | .applyCandidateConfig files => files = .success
  | .cancelCandidateConfig => True

/-- Whether the manager goes on after a call. -/
def goesOn : EStateM.Result Halt Manager PUnit → Bool
  | .ok _ _ => true
  | .error .rejected _ => true
  | .error .raised _ => true
  | .error .exited _ => false
  | .error .crashed _ => false

/-- One call and the state it leaves. -/
def Step (before : Manager) (op : Op) (after : Manager) : Prop :=
  goesOn (run env op before) = true ∧ after = final (run env op before)

end Manager

section Startup

/-- Post the nodes of a configuration at startup. Taking back what was posted writes through
an array index into an object, which raises. -/
def postStartup (config_file : Option Json) :
    (acknowledged : Bool) → (ordered_nodes_by_xpath : List Str) → Posting PUnit
  | _, [] => pure ⟨⟩
  | acknowledged, xpath :: rest => do
    match ← attempt (startupAction env config_file xpath) with
    | none => postStartup config_file acknowledged rest
    | some message => do
      if ← post env message then postStartup config_file true rest
      else if acknowledged then throw .raised
      else throw .rejected

/-- Check the update constraints of the nodes that have a schema and are in the tree. -/
def checkStartup (node_config : Node) : (ordered_nodes_by_xpath : List Str) → Attempt PUnit
  | [] => .ok ⟨⟩
  | xpath :: rest => do
    match ← env.getSchemaByXPath xpath, XPath.select node_config xpath with
    | some schema_node, some node => do
      checkConstraints env node_config node.location
        (schema_node.FindAttr Config.PropertyName.UPDATE_CONSTRAINTS)
      checkStartup node_config rest
    | _, _ => checkStartup node_config rest

/-- `fPerformAction`. -/
def fPerformAction (config_file : Option Json) (node_config : Node) : Posting PUnit := do
  let ordered_nodes_by_xpath ← attempt (NodeDependencyManager.resolve env node_config)
  attempt (checkStartup env node_config ordered_nodes_by_xpath)
  postStartup env config_file false ordered_nodes_by_xpath

/-- `Config::Manager::load`, from the document in the configuration file. -/
def Manager.load (jconfig : Json) : Posting Manager := do
  let reloaded ← attempt (fReloadNodeConfig env jconfig [])
  fPerformAction env (some jconfig) reloaded.1
  let posts ← get
  pure {
    configFile := some jconfig
    runningConfig := some reloaded.1
    runningJson := jconfig
    candidateConfig := none
    candidateJson := .null
    isCandidateConfigReady := false
    runningReferences := reloaded.2
    candidateReferences := reloaded.2
    posts := posts }

/-- A manager after a successful load, before anything else is called. -/
def Manager.Loaded (manager : Manager) : Prop :=
  ∃ jconfig log, Manager.load env jconfig [] = .ok manager log

/-- A state that admitted calls since a successful load have led to. -/
def Manager.ReachedBy (guard : Manager → Manager.Op → Prop) (last : Manager) : Prop :=
  ∃ first, Manager.Loaded env first ∧
    Relation.ReflTransGen (Guarded (Manager.Step env) guard) first last

/-- A state some calls have led to since a successful load. -/
abbrev Manager.Reachable (last : Manager) : Prop :=
  Manager.ReachedBy env (fun _ _ => True) last

end Startup

end FlexConfig
