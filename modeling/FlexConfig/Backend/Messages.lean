import FlexConfig.Foundation.ItemStore
import FlexConfig.Manager.Exactness
import Mathlib.Data.Finset.Dedup

/-! # The messages as changes to a store of items

The backend is taken for a store of items that is known by the messages it has
answered. A node whose update is posted has an item there: a container that states its
type is a member of its parent's item, and any other node is an item of its own with
its value. The encoders of updates and of the startup address that item; whether a
deletion does depends on the schema of the parent.
-/

namespace FlexConfig

open Procedure ItemStore

section Address

/-- Where the backend keeps the item of a node. -/
inductive Address where
  | own (xpath : Str)
  | member (parent name : Str)
  deriving DecidableEq

def Address.key : Address → Str
  | .own xpath => xpath
  | .member parent _ => parent

/-- The address of a node, where its update is posted. -/
def addressOf (env : Env) (xpath : Str) : Option Address :=
  match env.getSchemaByXPath xpath with
  | .ok (some schema_node) =>
    match schema_node.actionTarget Config.PropertyName.ACTION_ON_UPDATE_PATH,
      env.GetJsonSchemaByXPath xpath, Json.Pointer.parse xpath with
    | some _, .ok jschema, .ok pointer =>
      if jschema.hasContainerType then
        pointer.getLast?.map (Address.member (Json.Pointer.print pointer.dropLast))
      else some (.own xpath)
    | _, _, _ => none
  | _ => none

/-- The item at an address for a document. -/
def itemAt (jconfig : Json) : Address → Option (Str × Json)
  | .own xpath => (jconfig.atText xpath).toOption.map fun value => (xpath, value)
  | .member parent name => some (parent, .string name)

/-- The item of a node. -/
def itemOf (env : Env) (jconfig : Json) (xpath : Str) : Option (Str × Json) :=
  (addressOf env xpath).bind (itemAt jconfig)

/-- A configuration: its tree and its document. -/
structure Configuration where
  tree : Node
  jconfig : Json

/-- What the backend is meant to hold for a configuration. -/
def holdings (env : Env) (node_config : Node) (jconfig : Json) : Store Str Json :=
  ((xpathsOf node_config).filterMap (itemOf env jconfig)).toFinset

theorem mem_holdings {env : Env} {node_config : Node} {jconfig : Json} {item : Str × Json} :
    item ∈ holdings env node_config jconfig ↔
      ∃ xpath ∈ xpathsOf node_config, itemOf env jconfig xpath = some item := by
  simp [holdings]

theorem itemAt_key {jconfig : Json} {address : Address} {item : Str × Json}
    (here : itemAt jconfig address = some item) : item.1 = address.key := by
  cases address with
  | own xpath =>
      obtain ⟨value, _, rfl⟩ := Option.map_eq_some_iff.mp here
      rfl
  | member parent name =>
      cases here
      rfl

/-- No two nodes of a tree have one address, and no other node has an item under the path of a
node that is an item of its own. -/
def Separate (env : Env) (node_config : Node) : Prop :=
  ∀ xpath ∈ xpathsOf node_config, ∀ other ∈ xpathsOf node_config,
    ∀ address ∈ addressOf env xpath, ∀ second ∈ addressOf env other,
      address = second ∨ (address = .own xpath ∧ second.key = xpath) → xpath = other

instance (env : Env) (node_config : Node) : Decidable (Separate env node_config) :=
  inferInstanceAs (Decidable (∀ xpath ∈ xpathsOf node_config, _))

/-- Only the node at an own address has items under its path. -/
theorem Separate.own_key {env : Env} {node_config : Node} (separate : Separate env node_config)
    {jconfig : Json} {xpath other : Str} (member : xpath ∈ xpathsOf node_config)
    (otherMember : other ∈ xpathsOf node_config) (own : addressOf env xpath = some (.own xpath))
    {item : Str × Json} (here : itemOf env jconfig other = some item) (key : item.1 = xpath) :
    xpath = other := by
  obtain ⟨address, addressed, found⟩ := Option.bind_eq_some_iff.mp here
  have sameKey : address.key = xpath := (itemAt_key found).symm.trans key
  exact separate xpath member other otherMember _ own address addressed
    (Or.inr ⟨rfl, sameKey⟩)

theorem own_of_addressOf {env : Env} {xpath path : Str}
    (addressed : addressOf env xpath = some (.own path)) : path = xpath := by
  unfold addressOf at addressed
  split at addressed
  · split at addressed
    · split at addressed
      · obtain ⟨_, _, impossible⟩ := Option.map_eq_some_iff.mp addressed
        cases impossible
      · cases addressed
        rfl
    · cases addressed
  · cases addressed

/-- Nodes of a tree with the same item are the same. -/
theorem Separate.item_injective {env : Env} {node_config : Node}
    (separate : Separate env node_config) {jconfig : Json} {xpath other : Str}
    (member : xpath ∈ xpathsOf node_config) (otherMember : other ∈ xpathsOf node_config)
    {item : Str × Json} (here : itemOf env jconfig xpath = some item)
    (there : itemOf env jconfig other = some item) : xpath = other := by
  obtain ⟨address, addressed, found⟩ := Option.bind_eq_some_iff.mp here
  obtain ⟨second, secondAddressed, secondFound⟩ := Option.bind_eq_some_iff.mp there
  have key := itemAt_key found
  have secondKey := itemAt_key secondFound
  cases address with
  | own path =>
      have same := own_of_addressOf addressed
      subst same
      exact separate.own_key member otherMember addressed there key
  | member parent name =>
      cases second with
      | own path =>
          have same := own_of_addressOf secondAddressed
          subst same
          exact (separate.own_key otherMember member secondAddressed here secondKey).symm
      | member parent' name' =>
          cases found
          cases secondFound
          exact separate xpath member other otherMember _ addressed _ secondAddressed
            (Or.inl rfl)

end Address

section Change

/-- The change a message asks for. A removal that names no value clears the path. -/
def Action.change (action : Action) : Change Str Json :=
  let value := action.value.getD .null
  if action.operation = JsonDiffOperation.ADD then .add action.path value
  else if action.operation = JsonDiffOperation.REPLACE then .replace action.path value
  else if value = .null then .clear action.path
  else .remove action.path value

theorem change_of_add {action : Action} (adds : action.operation = JsonDiffOperation.ADD) :
    action.change = .add action.path (action.value.getD .null) := if_pos adds

theorem change_of_replace {action : Action}
    (replaces : action.operation = JsonDiffOperation.REPLACE) :
    action.change = .replace action.path (action.value.getD .null) := by
  unfold Action.change
  rw [replaces]
  exact if_neg (by decide)

/-- The changes of the messages that were answered. -/
def changesOf (log : Log) : List (Change Str Json) :=
  (log.filter Prod.snd).map fun entry => entry.1.action.change

/-- What the backend holds after the messages of a log. -/
def backendOf (log : Log) : Store Str Json := applyAll (changesOf log) ∅

theorem backendOf_append (log more : Log) :
    backendOf (log ++ more) = applyAll (changesOf more) (backendOf log) := by
  unfold backendOf changesOf
  rw [List.filter_append, List.map_append, applyAll_append]

/-- The change an encoder asks for at a node. -/
def changeAt (encode : Str → Attempt (Option Post)) (xpath : Str) : Option (Change Str Json) :=
  (encode xpath).toOption.join.map fun message => message.action.change

/-- The changes an encoder asks for at nodes in turn. -/
def changesAt (encode : Str → Attempt (Option Post)) (ordered : List Str) :
    List (Change Str Json) :=
  ordered.filterMap (changeAt encode)

theorem mem_changesAt {encode : Str → Attempt (Option Post)} {ordered : List Str}
    {change : Change Str Json} :
    change ∈ changesAt encode ordered ↔ ∃ xpath ∈ ordered, changeAt encode xpath = some change :=
  List.mem_filterMap

/-- Every node can be encoded, and the messages were sent and answered in turn. -/
structure Sent (encode : Str → Attempt (Option Post)) (ordered : List Str) (before after : Log) :
    Prop where
  encodes : ∀ xpath ∈ ordered, ∃ message, encode xpath = .ok message
  backend : backendOf after = applyAll (changesAt encode ordered) (backendOf before)

theorem sent_nil (encode : Str → Attempt (Option Post)) (log : Log) : Sent encode [] log log where
  encodes := fun _ impossible => absurd impossible List.not_mem_nil
  backend := rfl

theorem Sent.silent {encode : Str → Attempt (Option Post)} {xpath : Str} {rest : List Str}
    {before after : Log} (encoded : encode xpath = .ok none) (sent : Sent encode rest before after) :
    Sent encode (xpath :: rest) before after where
  encodes := List.forall_mem_cons.mpr ⟨⟨none, encoded⟩, sent.encodes⟩
  backend := by
    have silent : changeAt encode xpath = none := by
      unfold changeAt
      rw [encoded]
      rfl
    rw [sent.backend]
    unfold changesAt
    rw [List.filterMap_cons_none silent]

theorem Sent.answered {encode : Str → Attempt (Option Post)} {xpath : Str} {rest : List Str}
    {message : Post} {before after : Log} (encoded : encode xpath = .ok (some message))
    (sent : Sent encode rest (before ++ [(message, true)]) after) :
    Sent encode (xpath :: rest) before after where
  encodes := List.forall_mem_cons.mpr ⟨⟨some message, encoded⟩, sent.encodes⟩
  backend := by
    have asks : changeAt encode xpath = some message.action.change := by
      unfold changeAt
      rw [encoded]
      rfl
    rw [sent.backend, backendOf_append]
    unfold changesAt
    rw [List.filterMap_cons_some asks]
    rfl

end Change

section Post

variable {env : Env}

/-- Post the messages of nodes in turn. Where one is not answered the nodes done before it, the
last first, are undone and the call is refused. -/
def postEach (env : Env) (encode : Str → Attempt (Option Post)) (undo : List Str → Posting PUnit) :
    (done ordered : List Str) → Posting PUnit
  | _, [] => pure ⟨⟩
  | done, xpath :: rest => do
    match ← attempt (encode xpath) with
    | none => postEach env encode undo (xpath :: done) rest
    | some message => do
      if ← post env message then postEach env encode undo (xpath :: done) rest
      else do
        undo done
        throw .rejected

theorem postDeletions_eq {site : Site} {removed ordered : List Str} :
    postDeletions env site removed ordered =
      postEach env (deleteAction env site.configFile) (rollback_removed_nodes env site) removed
        ordered := by
  induction ordered generalizing removed with
  | nil => rfl
  | cons xpath rest ih =>
      refine congrArg (attempt _ >>= ·) (funext fun message => ?_)
      cases message with
      | none => exact ih
      | some message =>
          refine congrArg (post env message >>= ·) (funext fun answered => ?_)
          cases answered with
          | true => exact ih
          | false => rfl

theorem postUpdates_eq {node_config : Node} {jconfig json_config : Json}
    {added ordered : List Str} :
    postUpdates env node_config jconfig json_config added ordered =
      postEach env (updateAction env jconfig json_config) (rollback_added_nodes env node_config) added
        ordered := by
  induction ordered generalizing added with
  | nil => rfl
  | cons xpath rest ih =>
      refine congrArg (attempt _ >>= ·) (funext fun message => ?_)
      cases message with
      | none => exact ih
      | some message =>
          refine congrArg (post env message >>= ·) (funext fun answered => ?_)
          cases answered with
          | true => exact ih
          | false => rfl

theorem postEach_cons {encode : Str → Attempt (Option Post)} {undo : List Str → Posting PUnit}
    (done : List Str) (xpath : Str) (rest : List Str) (log : Log) :
    postEach env encode undo done (xpath :: rest) log =
      match encode xpath with
      | .error reason => .error reason log
      | .ok none => postEach env encode undo (xpath :: done) rest log
      | .ok (some message) =>
        if env.answers log.length then
          postEach env encode undo (xpath :: done) rest (log ++ [(message, true)])
        else (undo done >>= fun _ => throw .rejected) (log ++ [(message, false)]) := by
  rw [postEach]
  cases encoded : encode xpath with
  | error reason => rfl
  | ok message =>
      rw [bind_of_ok (attempt_eq_ok.mpr ⟨rfl, rfl⟩)]
      cases message with
      | none => rfl
      | some message =>
          dsimp only
          rw [post_bind]
          by_cases answered : env.answers log.length = true
          · rw [if_pos answered, if_pos answered, answered]
          · rw [if_neg answered, if_neg answered]
            rw [Bool.not_eq_true] at answered
            rw [answered]

theorem sent_of_postEach {encode : Str → Attempt (Option Post)} {undo : List Str → Posting PUnit}
    {done ordered : List Str} {before after : Log}
    (posted : postEach env encode undo done ordered before = .ok ⟨⟩ after) :
    Sent encode ordered before after := by
  induction ordered generalizing done before with
  | nil =>
      cases posted
      exact sent_nil _ _
  | cons xpath rest ih =>
      obtain ⟨message, log, attempted, posted⟩ := bind_eq_ok.mp posted
      obtain ⟨encoded, rfl⟩ := attempt_eq_ok.mp attempted
      cases message with
      | none => exact (ih posted).silent encoded
      | some message =>
          dsimp only at posted
          rw [post_bind] at posted
          cases answered : env.answers log.length with
          | true =>
              simp only [answered, if_true] at posted
              exact (ih posted).answered encoded
          | false =>
              simp only [answered, Bool.false_eq_true, if_false] at posted
              obtain ⟨_, _, _, impossible⟩ := bind_eq_ok.mp posted
              cases impossible

theorem sent_of_postDeletions {site : Site} {removed ordered : List Str} {before after : Log}
    (posted : postDeletions env site removed ordered before = .ok ⟨⟩ after) :
    Sent (deleteAction env site.configFile) ordered before after := by
  rw [postDeletions_eq] at posted
  exact sent_of_postEach posted

theorem sent_of_postUpdates {node_config : Node} {jconfig json_config : Json}
    {added ordered : List Str} {before after : Log}
    (posted : postUpdates env node_config jconfig json_config added ordered before =
      .ok ⟨⟩ after) :
    Sent (updateAction env jconfig json_config) ordered before after := by
  rw [postUpdates_eq] at posted
  exact sent_of_postEach posted

theorem sent_of_postStartup {config_file : Option Json} {acknowledged : Bool}
    {ordered : List Str} {before after : Log}
    (posted : postStartup env config_file acknowledged ordered before = .ok ⟨⟩ after) :
    Sent (startupAction env config_file) ordered before after := by
  induction ordered generalizing acknowledged before with
  | nil =>
      cases posted
      exact sent_nil _ _
  | cons xpath rest ih =>
      obtain ⟨message, log, attempted, posted⟩ := bind_eq_ok.mp posted
      obtain ⟨encoded, rfl⟩ := attempt_eq_ok.mp attempted
      cases message with
      | none => exact (ih posted).silent encoded
      | some message =>
          dsimp only at posted
          rw [post_bind] at posted
          cases answered : env.answers log.length with
          | true =>
              simp only [answered, if_true] at posted
              exact (ih posted).answered encoded
          | false =>
              simp only [answered, Bool.false_eq_true, if_false] at posted
              split at posted <;> cases posted

section Answers

variable {encode : Str → Attempt (Option Post)} {undo : List Str → Posting PUnit}

/-- How many of the nodes have a message. -/
def messageCount (encode : Str → Attempt (Option Post)) (xpaths : List Str) : Nat :=
  (xpaths.filter fun xpath => (encode xpath).toOption.join.isSome).length

/-- The messages of nodes can all be encoded, and are answered when they follow those sent so
far. -/
structure Replied (env : Env) (encode : Str → Attempt (Option Post)) (xpaths : List Str)
    (sent : Nat) : Prop where
  encodes : ∀ xpath ∈ xpaths, ∃ message, encode xpath = .ok message
  answers : ∀ k < messageCount encode xpaths, env.answers (sent + k) = true

instance (xpaths : List Str) (sent : Nat) : Decidable (Replied env encode xpaths sent) :=
  decidable_of_iff ((∀ xpath ∈ xpaths, (encode xpath).toOption.isSome = true) ∧
      ∀ k < messageCount encode xpaths, env.answers (sent + k) = true) <| by
    have encodes (xpath : Str) :
        (encode xpath).toOption.isSome = true ↔ ∃ message, encode xpath = .ok message :=
      Option.isSome_iff_exists.trans (exists_congr fun _ => mem_toOption)
    simp only [encodes]
    exact ⟨fun ⟨encodes, answers⟩ => ⟨encodes, answers⟩, fun ⟨encodes, answers⟩ =>
      ⟨encodes, answers⟩⟩

/-- It does not matter in which order the nodes are listed. -/
theorem Replied.perm {xpaths others : List Str} {sent : Nat} (same : xpaths.Perm others)
    (replied : Replied env encode xpaths sent) : Replied env encode others sent where
  encodes := fun xpath member => replied.encodes xpath (same.mem_iff.mpr member)
  answers := by
    have count : messageCount encode others = messageCount encode xpaths :=
      (same.filter _).length_eq.symm
    rw [count]
    exact replied.answers

theorem messageCount_cons_silent {xpath : Str} (encoded : encode xpath = .ok none)
    (rest : List Str) : messageCount encode (xpath :: rest) = messageCount encode rest := by
  unfold messageCount
  rw [List.filter_cons_of_neg]
  rw [encoded]
  exact Bool.false_ne_true

theorem messageCount_cons_posted {xpath : Str} {message : Post}
    (encoded : encode xpath = .ok (some message)) (rest : List Str) :
    messageCount encode (xpath :: rest) = messageCount encode rest + 1 := by
  unfold messageCount
  rw [List.filter_cons_of_pos, List.length_cons]
  rw [encoded]
  rfl

/-- Messages for nodes are posted to the end exactly where all of them are replied. -/
theorem exists_postEach_eq_ok_iff {done ordered : List Str} {before : Log} :
    (∃ after, postEach env encode undo done ordered before = .ok ⟨⟩ after) ↔
      Replied env encode ordered before.length := by
  induction ordered generalizing done before with
  | nil =>
      refine iff_of_true ⟨before, rfl⟩ ⟨fun _ impossible => absurd impossible List.not_mem_nil, ?_⟩
      exact fun k impossible => absurd impossible (Nat.not_lt_zero k)
  | cons xpath rest ih =>
      simp only [postEach_cons]
      cases encoded : encode xpath with
      | error reason =>
          refine iff_of_false (fun ⟨_, impossible⟩ => by cases impossible) fun replied => ?_
          obtain ⟨_, impossible⟩ := replied.encodes xpath List.mem_cons_self
          cases encoded.symm.trans impossible
      | ok message =>
          cases message with
          | none =>
              refine ih.trans ⟨fun replied => ?_, fun replied => ?_⟩
              · refine ⟨List.forall_mem_cons.mpr ⟨⟨none, encoded⟩, replied.encodes⟩, ?_⟩
                rw [messageCount_cons_silent encoded]
                exact replied.answers
              · refine ⟨(List.forall_mem_cons.mp replied.encodes).2, ?_⟩
                rw [← messageCount_cons_silent encoded]
                exact replied.answers
          | some message =>
              by_cases replies : env.answers before.length = true
              · simp only [if_pos replies]
                refine ih.trans ?_
                rw [List.length_append, List.length_singleton]
                constructor
                · intro replied
                  refine ⟨List.forall_mem_cons.mpr ⟨⟨_, encoded⟩, replied.encodes⟩, fun k less => ?_⟩
                  rw [messageCount_cons_posted encoded] at less
                  cases k with
                  | zero => exact replies
                  | succ k =>
                      rw [Nat.add_comm k 1, ← Nat.add_assoc]
                      exact replied.answers k (Nat.lt_of_succ_lt_succ less)
                · intro replied
                  refine ⟨(List.forall_mem_cons.mp replied.encodes).2, fun k less => ?_⟩
                  have next := replied.answers (k + 1)
                    ((messageCount_cons_posted encoded rest).symm ▸ Nat.succ_lt_succ less)
                  rw [Nat.add_assoc, Nat.add_comm 1 k]
                  exact next
              · simp only [if_neg replies]
                refine iff_of_false (fun ⟨after, returned⟩ => ?_) fun replied => ?_
                · obtain ⟨_, _, _, impossible⟩ := bind_eq_ok.mp returned
                  cases impossible
                · refine replies (replied.answers 0 ?_)
                  rw [messageCount_cons_posted encoded]
                  exact Nat.succ_pos _

/-- Messages that are posted to the end are all in the log. -/
theorem length_of_postEach {done ordered : List Str} {before after : Log}
    (posted : postEach env encode undo done ordered before = .ok ⟨⟩ after) :
    after.length = before.length + messageCount encode ordered := by
  induction ordered generalizing done before with
  | nil =>
      cases posted
      rfl
  | cons xpath rest ih =>
      rw [postEach_cons] at posted
      cases encoded : encode xpath with
      | error reason =>
          rw [encoded] at posted
          cases posted
      | ok message =>
          rw [encoded] at posted
          cases message with
          | none => rw [ih posted, messageCount_cons_silent encoded]
          | some message =>
              dsimp only at posted
              split at posted
              · rw [ih posted, List.length_append, List.length_singleton,
                  messageCount_cons_posted encoded]
                omega
              · obtain ⟨_, _, _, impossible⟩ := bind_eq_ok.mp posted
                cases impossible

end Answers

section Undo

/-- Post messages in turn. An unanswered one ends the process. -/
def postMessages (env : Env) : List (Attempt (Option Post)) → Posting PUnit :=
  forEach fun message => do
    match ← attempt message with
    | none => pure ⟨⟩
    | some message => do
      if ← post env message then pure ⟨⟩ else throw .exited

theorem rollback_removed_nodes_eq (site : Site) (removed : List Str) :
    rollback_removed_nodes env site removed =
      postMessages env (removed.map (restoreAction env site.runningConfig site.runningJson)) := by
  induction removed with
  | nil => rfl
  | cons xpath rest ih => exact congrArg (_ >>= fun _ => ·) ih

theorem rollback_added_nodes_eq (node_config : Node) (added : List Str) :
    rollback_added_nodes env node_config added =
      postMessages env (added.map (revokeAction env node_config)) := by
  induction added with
  | nil => rfl
  | cons xpath rest ih => exact congrArg (_ >>= fun _ => ·) ih

/-- One message posted in turn: it cannot be encoded, is silent, is answered or ends the
process. -/
theorem postMessages_cons (message : Attempt (Option Post))
    (rest : List (Attempt (Option Post))) (log : Log) :
    postMessages env (message :: rest) log =
      match message with
      | .error reason => .error reason log
      | .ok none => postMessages env rest log
      | .ok (some message) =>
        if env.answers log.length then postMessages env rest (log ++ [(message, true)])
        else .error .exited (log ++ [(message, false)]) := by
  cases message with
  | error reason => rfl
  | ok message =>
      cases message with
      | none => rfl
      | some message =>
          cases answered : env.answers log.length with
          | true =>
              simp only [postMessages, forEach, bind, EStateM.bind, attempt, post, answered, if_true]
              rfl
          | false =>
              simp only [postMessages, forEach, bind, EStateM.bind, attempt, post, answered,
                Bool.false_eq_true, if_false]
              rfl

theorem postMessages_silent {messages : List (Attempt (Option Post))}
    (silent : ∀ message ∈ messages, message = .ok none) (log : Log) :
    postMessages env messages log = .ok ⟨⟩ log := by
  induction messages with
  | nil => rfl
  | cons message rest ih =>
      obtain ⟨here, others⟩ := List.forall_mem_cons.mp silent
      rw [postMessages_cons, here]
      exact ih others

/-- Nodes without messages leave the log. -/
theorem postEach_of_silent {encode : Str → Attempt (Option Post)} {undo : List Str → Posting PUnit}
    {done ordered : List Str} (silent : ∀ xpath ∈ ordered, ∀ message, encode xpath ≠ .ok (some message))
    (log : Log) : final (postEach env encode undo done ordered log) = log := by
  induction ordered generalizing done with
  | nil => rfl
  | cons xpath rest ih =>
      obtain ⟨here, others⟩ := List.forall_mem_cons.mp silent
      rw [postEach_cons]
      cases encoded : encode xpath with
      | error reason => rfl
      | ok message =>
          cases message with
          | none => exact ih others
          | some message => exact absurd encoded (here message)

/-- Messages none of which is posted leave the log. -/
theorem postMessages_of_silent {messages : List (Attempt (Option Post))}
    (silent : ∀ message ∈ messages, ∀ post, message ≠ .ok (some post)) (log : Log) :
    final (postMessages env messages log) = log := by
  induction messages with
  | nil => rfl
  | cons message rest ih =>
      obtain ⟨here, others⟩ := List.forall_mem_cons.mp silent
      rw [postMessages_cons]
      cases message with
      | error reason => rfl
      | ok message =>
          cases message with
          | none => exact ih others
          | some message => exact absurd rfl (here message)

end Undo

end Post

section Encode

variable {env : Env} {xpath : Str}

/-- A document has something at a path. -/
def HasPath (jconfig : Json) (xpath : Str) : Prop :=
  ∃ pointer, Json.Pointer.parse xpath = .ok pointer ∧ jconfig.containsPointer pointer = .ok true

/-- A message that names a node in its parent has its name for a value. -/
theorem namedInParent_eq_ok {operation : Str} {pointer : List Str} {parameters : Option Json}
    {action : Action} (named : namedInParent operation pointer parameters = .ok action) :
    ∃ name, pointer.getLast? = some name ∧ action.operation = operation ∧
      action.path = Json.Pointer.print pointer.dropLast ∧ action.value = some (.string name) := by
  obtain ⟨name, last, finished⟩ := except_bind_eq_ok.mp named
  cases finished
  unfold Json.Pointer.back at last
  split at last
  · next token found =>
      cases last
      exact ⟨name, found, rfl, rfl, rfl⟩
  · cases last

theorem getD_diffValue (jnode : Json) : (diffValue jnode).getD .null = jnode := by
  unfold diffValue
  by_cases missing : jnode = .null
  · rw [if_pos missing, missing]
    rfl
  · rw [if_neg missing]
    rfl

/-- The schema of a node that is encoded is found. -/
theorem getSchemaByXPath_of_schemaNodeAt {schema_node : SchemaNode}
    (looked : env.schemaNodeAt xpath = .ok schema_node) :
    env.getSchemaByXPath xpath = .ok (some schema_node) := by
  obtain ⟨answer, found, finished⟩ := except_bind_eq_ok.mp looked
  cases answer with
  | none => cases finished
  | some other =>
      cases finished
      exact found

/-- At startup a node's message adds its item. -/
theorem startupAction_spec {jconfig : Json} {message : Option Post}
    (encoded : startupAction env (some jconfig) xpath = .ok message) :
    message.map (fun post => post.action.change) =
      (itemOf env jconfig xpath).map fun item => Change.add item.1 item.2 := by
  obtain ⟨schema_node, looked, encoded⟩ := except_bind_eq_ok.mp encoded
  have found := getSchemaByXPath_of_schemaNodeAt looked
  cases target : schema_node.actionTarget Config.PropertyName.ACTION_ON_UPDATE_PATH with
  | none =>
      simp only [target] at encoded
      cases encoded
      simp [itemOf, addressOf, found, target]
  | some server =>
      simp only [target] at encoded
      obtain ⟨jnode, read, encoded⟩ := except_bind_eq_ok.mp encoded
      obtain ⟨jschema, schema, encoded⟩ := except_bind_eq_ok.mp encoded
      obtain ⟨pointer, parsed, _⟩ := except_bind_eq_ok.mp read
      cases named : jschema.hasContainerType with
      | true =>
          simp only [named, if_true] at encoded
          obtain ⟨pointer', parsed', encoded⟩ := except_bind_eq_ok.mp encoded
          obtain ⟨action, acts, finished⟩ := except_bind_eq_ok.mp encoded
          cases finished
          cases parsed.symm.trans parsed'
          obtain ⟨name, last, operation, path, value⟩ := namedInParent_eq_ok acts
          simp [itemOf, addressOf, found, target, schema, parsed, named, last, itemAt,
            change_of_add operation, path, value]
      | false =>
          simp only [named, Bool.false_eq_true, if_false] at encoded
          cases encoded
          have value : jconfig.atText xpath = .ok jnode := read
          simp [itemOf, addressOf, found, target, schema, parsed, named, itemAt, value,
            Action.change, getD_diffValue, Except.toOption]

/-- An update adds the item of a node, or replaces it where the node is an item of its own and
the document before has something at its path. -/
theorem updateAction_spec {jconfig json_config : Json} {message : Option Post}
    (encoded : updateAction env jconfig json_config xpath = .ok message) :
    (message = none ∧ addressOf env xpath = none) ∨
      ∃ post item, message = some post ∧ itemOf env json_config xpath = some item ∧
        ((post.action.change = .add item.1 item.2 ∧
            (addressOf env xpath = some (.own xpath) → ¬ HasPath jconfig xpath)) ∨
          (post.action.change = .replace item.1 item.2 ∧
            addressOf env xpath = some (.own xpath))) := by
  obtain ⟨schema_node, looked, encoded⟩ := except_bind_eq_ok.mp encoded
  have found := getSchemaByXPath_of_schemaNodeAt looked
  cases target : schema_node.actionTarget Config.PropertyName.ACTION_ON_UPDATE_PATH with
  | none =>
      simp only [target] at encoded
      cases encoded
      left
      simp [addressOf, found, target]
  | some server =>
      simp only [target] at encoded
      obtain ⟨pointer, parsed, encoded⟩ := except_bind_eq_ok.mp encoded
      obtain ⟨jnode, read, encoded⟩ := except_bind_eq_ok.mp encoded
      obtain ⟨contained, contains, encoded⟩ := except_bind_eq_ok.mp encoded
      obtain ⟨jschema, schema, encoded⟩ := except_bind_eq_ok.mp encoded
      rw [Json.Pointer.print_parse parsed] at schema
      right
      cases named : jschema.hasContainerType with
      | true =>
          simp only [named, if_true] at encoded
          obtain ⟨action, acts, finished⟩ := except_bind_eq_ok.mp encoded
          cases finished
          obtain ⟨name, last, operation, path, value⟩ := namedInParent_eq_ok acts
          have member : addressOf env xpath =
              some (.member (Json.Pointer.print pointer.dropLast) name) := by
            simp [addressOf, found, target, schema, parsed, named, last]
          refine ⟨_, (Json.Pointer.print pointer.dropLast, .string name), rfl, ?_, Or.inl ⟨?_, ?_⟩⟩
          · simp [itemOf, member, itemAt]
          · rw [change_of_add operation, path, value]
            rfl
          · intro own
            rw [member] at own
            cases own
      | false =>
          simp only [named, Bool.false_eq_true, if_false] at encoded
          cases encoded
          have own : addressOf env xpath = some (.own xpath) := by
            simp [addressOf, found, target, schema, parsed, named]
          have value : json_config.atText xpath = .ok jnode :=
            except_bind_eq_ok.mpr ⟨pointer, parsed, read⟩
          refine ⟨_, (xpath, jnode), rfl, ?_, ?_⟩
          · simp [itemOf, own, itemAt, value, Except.toOption]
          · cases contained with
            | true =>
                right
                refine ⟨?_, own⟩
                rw [change_of_replace rfl, getD_diffValue]
            | false =>
                left
                refine ⟨?_, fun _ has => ?_⟩
                · rw [change_of_add rfl, getD_diffValue]
                · obtain ⟨pointer', parsed', contains'⟩ := has
                  cases parsed.symm.trans parsed'
                  cases contains.symm.trans contains'

section Update

variable {jconfig json_config : Json} {change : Change Str Json}

theorem changeAt_eq_some {encode : Str → Attempt (Option Post)}
    (asks : changeAt encode xpath = some change) :
    ∃ message, encode xpath = .ok (some message) ∧ message.action.change = change := by
  obtain ⟨message, joined, changes⟩ := Option.map_eq_some_iff.mp asks
  exact ⟨message, mem_toOption.mp (Option.join_eq_some_iff.mp joined), changes⟩

/-- An update of a node with an item is posted. -/
theorem update_asks {message : Option Post}
    (encoded : updateAction env jconfig json_config xpath = .ok message) {item : Str × Json}
    (here : itemOf env json_config xpath = some item) :
    ∃ change, changeAt (updateAction env jconfig json_config) xpath = some change := by
  rcases updateAction_spec encoded with ⟨_, missing⟩ | ⟨post, _, rfl, _, _⟩
  · unfold itemOf at here
    rw [missing] at here
    cases here
  · refine ⟨post.action.change, ?_⟩
    unfold changeAt
    rw [encoded]
    rfl

/-- An update inserts the item of its node. -/
theorem update_inserts_iff
    (asks : changeAt (updateAction env jconfig json_config) xpath = some change)
    {item : Str × Json} : change.Inserts item ↔ itemOf env json_config xpath = some item := by
  obtain ⟨message, encoded, rfl⟩ := changeAt_eq_some asks
  rcases updateAction_spec encoded with ⟨impossible, _⟩ | ⟨post, here, same, itemHere, changes⟩
  · cases impossible
  cases same
  rw [itemHere, Option.some_inj, eq_comm]
  rcases changes with ⟨adds, _⟩ | ⟨replaces, _⟩
  · rw [adds]
    rfl
  · rw [replaces]
    rfl

/-- An update erases only under the path of a node that is an item of its own. -/
theorem update_erases_own
    (asks : changeAt (updateAction env jconfig json_config) xpath = some change)
    {item : Str × Json} (erases : change.Erases item) :
    addressOf env xpath = some (.own xpath) ∧ item.1 = xpath := by
  obtain ⟨message, encoded, rfl⟩ := changeAt_eq_some asks
  rcases updateAction_spec encoded with ⟨impossible, _⟩ | ⟨post, here, same, itemHere, changes⟩
  · cases impossible
  cases same
  rcases changes with ⟨adds, _⟩ | ⟨replaces, own⟩
  · rw [adds] at erases
    cases erases
  · rw [replaces] at erases
    have key : here.1 = xpath := by
      obtain ⟨address, addressed, found⟩ := Option.bind_eq_some_iff.mp itemHere
      rw [own] at addressed
      cases addressed
      exact itemAt_key found
    exact ⟨own, erases.1.trans key⟩

/-- An update does not erase the item of its node. -/
theorem update_spares
    (asks : changeAt (updateAction env jconfig json_config) xpath = some change)
    {item : Str × Json} (here : itemOf env json_config xpath = some item) :
    ¬ change.Erases item := by
  obtain ⟨message, encoded, rfl⟩ := changeAt_eq_some asks
  rcases updateAction_spec encoded with ⟨impossible, _⟩ | ⟨post, other, same, itemHere, changes⟩
  · cases impossible
  cases same
  cases here.symm.trans itemHere
  intro erases
  rcases changes with ⟨adds, _⟩ | ⟨replaces, _⟩
  · rw [adds] at erases
    cases erases
  · rw [replaces] at erases
    exact erases.2 rfl

/-- An update of a node that is an item of its own and was there before leaves one item under
its path. -/
theorem update_replaces (encodes : ∃ message, updateAction env jconfig json_config xpath =
      .ok message) (own : addressOf env xpath = some (.own xpath)) (has : HasPath jconfig xpath)
    {item : Str × Json} (key : item.1 = xpath) :
    itemOf env json_config xpath = some item ∨
      ∃ change, changeAt (updateAction env jconfig json_config) xpath = some change ∧
        change.Erases item := by
  obtain ⟨message, encoded⟩ := encodes
  rcases updateAction_spec encoded with ⟨_, missing⟩ | ⟨post, here, rfl, itemHere, changes⟩
  · rw [missing] at own
    cases own
  have asks : changeAt (updateAction env jconfig json_config) xpath = some post.action.change := by
    unfold changeAt
    rw [encoded]
    rfl
  rcases changes with ⟨_, absent⟩ | ⟨replaces, _⟩
  · exact absurd has (absent own)
  have hereKey : here.1 = xpath := by
    obtain ⟨address, addressed, found⟩ := Option.bind_eq_some_iff.mp itemHere
    rw [own] at addressed
    cases addressed
    exact itemAt_key found
  by_cases same : item.2 = here.2
  · left
    rw [itemHere, Prod.ext (hereKey.trans key.symm) same.symm]
  · right
    refine ⟨_, asks, ?_⟩
    rw [replaces]
    exact ⟨key.trans hereKey.symm, same⟩

end Update

end Encode

end FlexConfig
