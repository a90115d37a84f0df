import FlexConfig.Backend.Messages
import FlexConfig.Foundation.Effect

/-! # The rollback of a startup

At startup the messages that were answered are kept on a stack. When one is not answered, each
of them should become a remove that goes to where its own node is deleted. The loop of the code
sets the parameters through an array index into the message, which is an object, and has the
server, the path and the schema of the node that failed at hand. So a startup that fails is
undone exactly when there is nothing to undo.
-/

namespace FlexConfig

open Procedure Schema

variable (env : Env)

/-- `action[0][JsonDiffField::PARAMETERS] = ...`: an index into an object raises. -/
def Action.setParametersAtIndex (_ : Action) (_ : Json) : Attempt Action := .error .raised

/-- The loop that takes the answered messages back, with the server, the path and the
parameters of the node that failed. -/
def rollbackStartup (server resource : Str) (parameters : Json) :
    (action_to_rollback : List Action) → Posting PUnit
  | [] => pure ⟨⟩
  | action :: rest => do
    let removal : Action := { action with operation := JsonDiffOperation.REMOVE }
    let message ← attempt (removal.setParametersAtIndex parameters)
    let _ ← post env ⟨server, resource, message⟩
    rollbackStartup server resource parameters rest

/-- Post the nodes of a configuration at startup, with the stack of the answered messages. -/
def postStacked (config_file : Option Json) :
    (action_to_rollback : List Action) → (ordered_nodes_by_xpath : List Str) → Posting PUnit
  | _, [] => pure ⟨⟩
  | action_to_rollback, xpath :: rest => do
    match ← attempt (startupAction env config_file xpath) with
    | none => postStacked config_file action_to_rollback rest
    | some message => do
      if ← post env message then
        postStacked config_file (message.action :: action_to_rollback) rest
      else do
        let jnode ← attempt (getConfigNode config_file xpath)
        let jschema ← attempt (env.GetJsonSchemaByXPath xpath)
        rollbackStartup env message.server message.resource
          (fFindAndAppendParamAction jschema jnode CustomKeyword.ACTION_PARAM_ON_DELETE)
          action_to_rollback
        throw .rejected

section Stack

variable {env}

/-- What a message was made from can be read again. -/
theorem startupAction_reads {config_file : Option Json} {xpath : Str} {message : Post}
    (encoded : startupAction env config_file xpath = .ok (some message)) :
    ∃ jnode jschema, getConfigNode config_file xpath = .ok jnode ∧
      env.GetJsonSchemaByXPath xpath = .ok jschema := by
  obtain ⟨schema_node, _, encoded⟩ := except_bind_eq_ok.mp encoded
  cases target : schema_node.actionTarget Config.PropertyName.ACTION_ON_UPDATE_PATH with
  | none =>
      simp only [target] at encoded
      cases encoded
  | some place =>
      simp only [target] at encoded
      obtain ⟨jnode, read, encoded⟩ := except_bind_eq_ok.mp encoded
      obtain ⟨jschema, schema, _⟩ := except_bind_eq_ok.mp encoded
      exact ⟨jnode, jschema, read, schema⟩

/-- The rollback of nothing does nothing, any other one raises before it sends anything. -/
theorem rollbackStartup_eq (server resource : Str) (parameters : Json) (stack : List Action)
    (log : Log) :
    rollbackStartup env server resource parameters stack log =
      if stack.isEmpty then .ok ⟨⟩ log else .error .raised log := by
  cases stack with
  | nil => rfl
  | cons action rest => rfl

/-- Whether anything is on the stack is all that the loop depends on. -/
theorem postStacked_eq (config_file : Option Json) (stack : List Action) (ordered : List Str) :
    postStacked env config_file stack ordered =
      postStartup env config_file (!stack.isEmpty) ordered := by
  induction ordered generalizing stack with
  | nil => rfl
  | cons xpath rest ih =>
      funext log
      unfold postStacked postStartup
      cases encoded : startupAction env config_file xpath with
      | error reason => rfl
      | ok message =>
          rw [attempt_ok_bind, attempt_ok_bind]
          cases message with
          | none => exact congrFun (ih stack) log
          | some message =>
              dsimp only
              rw [post_bind, post_bind]
              cases env.answers log.length with
              | true => exact congrFun (ih (message.action :: stack)) _
              | false =>
                  obtain ⟨jnode, jschema, read, schema⟩ := startupAction_reads encoded
                  simp only [Bool.false_eq_true, if_false]
                  rw [read, schema, attempt_ok_bind, attempt_ok_bind]
                  cases stack with
                  | nil =>
                      rw [bind_of_ok (rollbackStartup_eq _ _ _ [] _)]
                      rfl
                  | cons action rest =>
                      rw [bind_of_error (rollbackStartup_eq _ _ _ (action :: rest) _)]
                      rfl

/-- The startup of a configuration is the loop with the stack, from an empty one. -/
theorem fPerformAction_eq (config_file : Option Json) (node_config : Node) :
    fPerformAction env config_file node_config = (do
      let ordered_nodes_by_xpath ← attempt (NodeDependencyManager.resolve env node_config)
      attempt (checkStartup env node_config ordered_nodes_by_xpath)
      postStacked env config_file [] ordered_nodes_by_xpath) := by
  unfold fPerformAction
  simp only [postStacked_eq]
  rfl

end Stack

section Failure

/-- The messages of nodes at startup, with the path of each one's node. -/
def startupMessages (config_file : Option Json) : List Str → Attempt (List (Str × Post))
  | [] => .ok []
  | xpath :: rest => do
    match ← startupAction env config_file xpath with
    | none => startupMessages config_file rest
    | some message => return (xpath, message) :: (← startupMessages config_file rest)

/-- A startup comes to the node at an index, where a message is first left unanswered: the
messages of the nodes before it were answered. -/
structure FirstFails (config_file : Option Json) (node_config : Node) (log : Log) (index : Nat)
    (ordered : List Str) (acknowledged : List (Str × Post)) (failing : Post) : Prop where
  resolved : NodeDependencyManager.resolve env node_config = .ok ordered
  checked : checkStartup env node_config ordered = .ok ⟨⟩
  before : startupMessages env config_file (ordered.take index) = .ok acknowledged
  here : ∃ xpath, ordered[index]? = some xpath ∧
    startupAction env config_file xpath = .ok (some failing)
  answered : ∀ position < acknowledged.length, env.answers (log.length + position) = true
  unanswered : env.answers (log.length + acknowledged.length) = false

/-- A message removes the item that another one added at a node, and goes where the schema of
this node has deletions sent. -/
def Removes (xpath : Str) (addition removal : Post) : Prop :=
  (∃ schema_node, env.schemaNodeAt xpath = .ok schema_node ∧
    schema_node.actionTarget Config.PropertyName.ACTION_ON_DELETE_PATH =
      some (removal.server, removal.resource)) ∧
    removal.action.operation = JsonDiffOperation.REMOVE ∧
    removal.action.path = addition.action.path ∧ removal.action.value = addition.action.value

/-- A startup that fails is refused, after it has undone what was answered, the last first. -/
def UndoneAtStartup (config_file : Option Json) (node_config : Node) (log : Log)
    (acknowledged : List (Str × Post)) (failing : Post) : Prop :=
  ∃ removals : List (Post × Bool),
    fPerformAction env config_file node_config log =
      .error .rejected (log ++ acknowledged.map (fun entry => (entry.2, true)) ++
        [(failing, false)] ++ removals) ∧
    List.Forall₂ (fun entry removal => Removes env entry.1 entry.2 removal.1)
      acknowledged.reverse removals

/-- The schema of a node states no update action with a server to send it to. -/
def WithoutUpdateAction (xpath : Str) : Prop :=
  ∃ schema_node, env.schemaNodeAt xpath = .ok schema_node ∧
    schema_node.actionTarget Config.PropertyName.ACTION_ON_UPDATE_PATH = none

variable {env} {config_file : Option Json} {node_config : Node} {log : Log} {index : Nat}
  {ordered : List Str} {acknowledged : List (Str × Post)} {failing : Post}

/-- A node has no message exactly when its schema states no action for it. -/
theorem startupAction_eq_none_iff {xpath : Str} :
    startupAction env config_file xpath = .ok none ↔ WithoutUpdateAction env xpath := by
  constructor
  · intro encoded
    obtain ⟨schema_node, looked, encoded⟩ := except_bind_eq_ok.mp encoded
    cases target : schema_node.actionTarget Config.PropertyName.ACTION_ON_UPDATE_PATH with
    | none => exact ⟨schema_node, looked, target⟩
    | some place =>
        simp only [target] at encoded
        obtain ⟨jnode, _, encoded⟩ := except_bind_eq_ok.mp encoded
        obtain ⟨jschema, _, encoded⟩ := except_bind_eq_ok.mp encoded
        cases named : jschema.hasContainerType with
        | true =>
            simp only [named, if_true] at encoded
            obtain ⟨pointer, _, encoded⟩ := except_bind_eq_ok.mp encoded
            obtain ⟨action, _, finished⟩ := except_bind_eq_ok.mp encoded
            cases finished
        | false =>
            simp only [named, Bool.false_eq_true, if_false] at encoded
            cases encoded
  · intro without
    obtain ⟨schema_node, looked, target⟩ := without
    refine except_bind_eq_ok.mpr ⟨schema_node, looked, ?_⟩
    simp only [target]
    rfl

/-- There are no messages exactly when no node has an action. -/
theorem startupMessages_eq_nil_iff {xpaths : List Str}
    (sent : startupMessages env config_file xpaths = .ok acknowledged) :
    acknowledged = [] ↔ ∀ xpath ∈ xpaths, WithoutUpdateAction env xpath := by
  induction xpaths with
  | nil =>
      cases sent
      exact ⟨fun _ _ impossible => absurd impossible List.not_mem_nil, fun _ => rfl⟩
  | cons xpath rest ih =>
      obtain ⟨message, encoded, sent⟩ := except_bind_eq_ok.mp sent
      cases message with
      | none =>
          rw [ih sent, List.forall_mem_cons]
          exact ⟨fun others => ⟨startupAction_eq_none_iff.mp encoded, others⟩, And.right⟩
      | some message =>
          obtain ⟨others, _, finished⟩ := except_bind_eq_ok.mp sent
          cases finished
          refine ⟨fun impossible => absurd impossible (List.cons_ne_nil _ _), fun without => ?_⟩
          have silent : startupAction env config_file xpath = .ok none :=
            startupAction_eq_none_iff.mpr (without xpath List.mem_cons_self)
          cases encoded.symm.trans silent

/-- The loop comes to the node that fails with the messages before it posted. -/
theorem postStartup_of_messages {xpaths rest : List Str} {already : Bool}
    (sent : startupMessages env config_file xpaths = .ok acknowledged)
    (answered : ∀ position < acknowledged.length, env.answers (log.length + position) = true) :
    postStartup env config_file already (xpaths ++ rest) log =
      postStartup env config_file (already || !acknowledged.isEmpty) rest
        (log ++ acknowledged.map fun entry => (entry.2, true)) := by
  induction xpaths generalizing already log acknowledged with
  | nil =>
      cases sent
      simp
  | cons xpath others ih =>
      obtain ⟨message, encoded, sent⟩ := except_bind_eq_ok.mp sent
      rw [List.cons_append]
      conv_lhs => unfold postStartup
      rw [encoded, attempt_ok_bind]
      cases message with
      | none => exact ih sent answered
      | some message =>
          obtain ⟨later, sentLater, finished⟩ := except_bind_eq_ok.mp sent
          cases finished
          have first := answered 0 (Nat.zero_lt_succ _)
          rw [Nat.add_zero] at first
          dsimp only
          rw [post_bind, first]
          have answeredLater : ∀ position < later.length,
              env.answers ((log ++ [(message, true)]).length + position) = true := by
            intro position bounded
            rw [List.length_append, List.length_singleton, Nat.add_assoc, Nat.add_comm 1]
            exact answered (position + 1) (Nat.succ_lt_succ bounded)
          have others : postStartup env config_file true (others ++ rest)
              (log ++ [(message, true)]) = _ := ih sentLater answeredLater
          rw [if_pos rfl, others, List.append_assoc, Bool.true_or, List.isEmpty_cons, Bool.not_false,
            Bool.or_true]
          rfl

/-- How a startup ends that fails at a node. -/
theorem fPerformAction_of_firstFails
    (fails : FirstFails env config_file node_config log index ordered acknowledged failing) :
    fPerformAction env config_file node_config log =
      .error (if acknowledged.isEmpty then .rejected else .raised)
        (log ++ acknowledged.map (fun entry => (entry.2, true)) ++ [(failing, false)]) := by
  obtain ⟨xpath, at_index, encoded⟩ := fails.here
  have split : ordered = ordered.take index ++ xpath :: ordered.drop (index + 1) := by
    have bounded := List.getElem?_eq_some_iff.mp at_index
    obtain ⟨bounded, same⟩ := bounded
    rw [← same, List.getElem_cons_drop, List.take_append_drop]
  unfold fPerformAction
  rw [fails.resolved, attempt_ok_bind, fails.checked, attempt_ok_bind, split,
    postStartup_of_messages fails.before fails.answered, Bool.false_or]
  unfold postStartup
  rw [encoded, attempt_ok_bind]
  dsimp only
  rw [post_bind, List.length_append, List.length_map, fails.unanswered]
  cases acknowledged with
  | nil => rfl
  | cons first others => rfl

/-- A startup that fails at a node is undone exactly when no node before it has an action. -/
theorem undoneAtStartup_iff
    (fails : FirstFails env config_file node_config log index ordered acknowledged failing) :
    UndoneAtStartup env config_file node_config log acknowledged failing ↔
      ∀ xpath ∈ ordered.take index, WithoutUpdateAction env xpath := by
  rw [← startupMessages_eq_nil_iff fails.before]
  unfold UndoneAtStartup
  rw [fPerformAction_of_firstFails fails]
  constructor
  · intro undone
    obtain ⟨removals, ended, _⟩ := undone
    cases acknowledged with
    | nil => rfl
    | cons first others => cases ended
  · intro none_before
    cases none_before
    exact ⟨[], by rw [List.append_nil]; rfl, .nil⟩

end Failure

end FlexConfig

namespace FlexConfig.Sample

open Procedure

/-- Settings, the message of one of which is not answered at startup. -/
def unansweredStartup (index : Nat) : Env :=
  deployment (object [("properties", object [
    ("set", object [("properties", object [("a", posted), ("b", posted)])])])])
    fun n => n ≠ index

def twoSettings : Json := object [("set", object [("a", text "1"), ("b", text "2")])]

/-- The tree of the settings. -/
def twoSettingsTree : Node :=
  .composite [("set".toList, .composite [("a".toList, .leaf "1".toList),
    ("b".toList, .leaf "2".toList)])]

/-- The message of a setting at startup. -/
def settingMessage (name value : String) : Post where
  server := "backend".toList
  resource := "/update".toList
  action := {
    operation := "add".toList
    path := ("/set/" ++ name).toList
    value := some (text value)
    parameters := some (.object []) }

/-- The paths of the settings' tree in the order of startup. -/
def settingsOrder : List Str := ["/set".toList, "/set/b".toList, "/set/a".toList]

/-- The first message, the one of the setting behind the container, is not answered. -/
theorem first_setting_fails :
    FirstFails (unansweredStartup 0) (some twoSettings) twoSettingsTree [] 1 settingsOrder []
      (settingMessage "b" "2") where
  resolved := by decide +kernel
  checked := by decide +kernel
  before := by decide +kernel
  here := ⟨"/set/b".toList, rfl, by decide +kernel⟩
  answered := by decide
  unanswered := by decide

/-- A startup whose first message is not answered has nothing to undo. -/
theorem first_setting_undone :
    UndoneAtStartup (unansweredStartup 0) (some twoSettings) twoSettingsTree [] []
      (settingMessage "b" "2") := by
  refine (undoneAtStartup_iff first_setting_fails).mpr fun xpath member => ?_
  cases List.mem_singleton.mp member
  exact startupAction_eq_none_iff.mp (show startupAction (unansweredStartup 0) (some twoSettings)
    "/set".toList = .ok none by decide +kernel)

/-- The second message is not answered, and the setting that was added before stays there. -/
theorem second_setting_not_undone :
    FirstFails (unansweredStartup 1) (some twoSettings) twoSettingsTree [] 2 settingsOrder
        [("/set/b".toList, settingMessage "b" "2")] (settingMessage "a" "1") ∧
      fPerformAction (unansweredStartup 1) (some twoSettings) twoSettingsTree [] =
        .error .raised [(settingMessage "b" "2", true), (settingMessage "a" "1", false)] ∧
      ¬ UndoneAtStartup (unansweredStartup 1) (some twoSettings) twoSettingsTree []
        [("/set/b".toList, settingMessage "b" "2")] (settingMessage "a" "1") := by
  have fails : FirstFails (unansweredStartup 1) (some twoSettings) twoSettingsTree [] 2
      settingsOrder [("/set/b".toList, settingMessage "b" "2")] (settingMessage "a" "1") := {
    resolved := by decide +kernel
    checked := by decide +kernel
    before := by decide +kernel
    here := ⟨"/set/a".toList, rfl, by decide +kernel⟩
    answered := by decide
    unanswered := by decide }
  have ended := fPerformAction_of_firstFails fails
  refine ⟨fails, ended, fun undone => ?_⟩
  obtain ⟨removals, rejected, _⟩ := undone
  cases ended.symm.trans rejected

end FlexConfig.Sample
