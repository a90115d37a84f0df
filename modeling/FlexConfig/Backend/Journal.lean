import FlexConfig.Backend.Compensation
import FlexConfig.Foundation.Concurrent
import FlexConfig.Manager.Exactness
import FlexConfig.Manager.Operations

/-! # The order of the messages

Whatever the backend answers, a call posts in four phases: deletions, updates, revocations of the
updates and restorations of the deletions. Each phase goes through the tree in one direction, and
takes no node twice: a node is added, updated or restored after the nodes above it, and deleted or
revoked before them.
-/

namespace FlexConfig

open Procedure

/-- The messages of nodes, in their order. -/
def messages (encode : Str → Attempt (Option Post)) : List Str → Attempt (List Post)
  | [] => .ok []
  | xpath :: rest => do
    let message ← encode xpath
    let others ← messages encode rest
    return message.toList ++ others

/-- Every message of a log was answered. -/
def Answered (log : Log) : Prop := ∀ entry ∈ log, entry.2 = true

/-- A phase: the messages of the nodes up to one of them, the next one sent when the one before it
was answered. -/
def InTurn (encode : Str → Attempt (Option Post)) (nodes : List Str) (log : Log) : Prop :=
  ∃ visited, visited <+: nodes ∧ messages encode visited = .ok (log.map Prod.fst) ∧
    Answered log.dropLast

/-- A phase that went through all of its nodes. -/
def Through (encode : Str → Attempt (Option Post)) (nodes : List Str) (log : Log) : Prop :=
  messages encode nodes = .ok (log.map Prod.fst) ∧ Answered log

/-- A phase that takes back what was answered in another one, the last node first. -/
def TakesBack (encode undo : Str → Attempt (Option Post)) (nodes : List Str) (log undone : Log) :
    Prop :=
  ∃ taken, taken <+: nodes ∧ messages encode taken = .ok ((log.filter Prod.snd).map Prod.fst) ∧
    InTurn undo taken.reverse undone

section Phases

variable {encode undoing : Str → Attempt (Option Post)} {nodes rest : List Str} {xpath : Str}
  {log undone : Log}

theorem messages_cons {message : Option Post} (encoded : encode xpath = .ok message)
    {others : List Post} (later : messages encode rest = .ok others) :
    messages encode (xpath :: rest) = .ok (message.toList ++ others) :=
  except_bind_eq_ok.mpr ⟨message, encoded, except_bind_eq_ok.mpr ⟨others, later, rfl⟩⟩

theorem answered_nil : Answered [] := fun _ member => absurd member List.not_mem_nil

theorem Answered.cons (answered : Answered log) (message : Post) :
    Answered ((message, true) :: log) := List.forall_mem_cons.mpr ⟨rfl, answered⟩

theorem Answered.dropLast (answered : Answered log) : Answered log.dropLast :=
  fun _ member => answered _ (List.mem_of_mem_dropLast member)

theorem through_nil (encode : Str → Attempt (Option Post)) : Through encode [] [] :=
  ⟨rfl, answered_nil⟩

theorem Through.skip (through : Through encode rest log) (encoded : encode xpath = .ok none) :
    Through encode (xpath :: rest) log := ⟨messages_cons encoded through.1, through.2⟩

theorem Through.answered {message : Post} (through : Through encode rest log)
    (encoded : encode xpath = .ok (some message)) :
    Through encode (xpath :: rest) ((message, true) :: log) :=
  ⟨messages_cons encoded through.1, through.2.cons message⟩

theorem Through.filter (through : Through encode nodes log) : log.filter Prod.snd = log :=
  List.filter_eq_self.mpr through.2

/-- A phase that stops before a node, because its message cannot be made. -/
theorem Through.inTurn {taken : List Str} (through : Through encode taken log)
    (first : taken <+: nodes) : InTurn encode nodes log :=
  ⟨taken, first, through.1, through.2.dropLast⟩

theorem inTurn_nil (encode : Str → Attempt (Option Post)) (nodes : List Str) :
    InTurn encode nodes [] := (through_nil encode).inTurn List.nil_prefix

theorem InTurn.skip (turn : InTurn encode rest log) (encoded : encode xpath = .ok none) :
    InTurn encode (xpath :: rest) log := by
  obtain ⟨visited, first, sent, answered⟩ := turn
  exact ⟨xpath :: visited, List.cons_prefix_cons.mpr ⟨rfl, first⟩, messages_cons encoded sent,
    answered⟩

theorem InTurn.answered {message : Post} (turn : InTurn encode rest log)
    (encoded : encode xpath = .ok (some message)) :
    InTurn encode (xpath :: rest) ((message, true) :: log) := by
  obtain ⟨visited, first, sent, answered⟩ := turn
  refine ⟨xpath :: visited, List.cons_prefix_cons.mpr ⟨rfl, first⟩, messages_cons encoded sent, ?_⟩
  cases log with
  | nil => exact answered_nil
  | cons next others => exact answered.cons message

/-- A phase that stops at a node whose message is not answered. -/
theorem Through.inTurn_unanswered {taken : List Str} {message : Post}
    (through : Through encode taken log) (encoded : encode xpath = .ok (some message))
    (first : taken ++ [xpath] <+: nodes) : InTurn encode nodes (log ++ [(message, false)]) := by
  refine ⟨taken ++ [xpath], first, ?_, by rw [List.dropLast_concat]; exact through.2⟩
  obtain ⟨sent, _⟩ := through
  rw [List.map_append]
  generalize log.map Prod.fst = others at sent ⊢
  clear first
  induction taken generalizing others with
  | nil =>
      cases sent
      exact messages_cons encoded rfl
  | cons other more ih =>
      obtain ⟨known, known_eq, sent⟩ := except_bind_eq_ok.mp sent
      obtain ⟨later, later_eq, sent⟩ := except_bind_eq_ok.mp sent
      cases sent
      rw [List.append_assoc]
      exact messages_cons known_eq (ih later later_eq)

theorem Through.takesBack {taken : List Str} (through : Through encode taken log)
    (first : taken <+: nodes) (turn : InTurn undoing taken.reverse undone) :
    TakesBack encode undoing nodes log undone :=
  ⟨taken, first, by rw [through.filter]; exact through.1, turn⟩

theorem Through.takesBack_unanswered {taken : List Str} (through : Through encode taken log)
    (first : taken <+: nodes) (turn : InTurn undoing taken.reverse undone) (message : Post) :
    TakesBack encode undoing nodes (log ++ [(message, false)]) undone := by
  refine ⟨taken, first, ?_, turn⟩
  rw [List.filter_append, through.filter]
  exact through.1.trans (congrArg (Except.ok <| ·.map Prod.fst) (List.append_nil log).symm)

variable {env : Env} {undo : List Str → Posting PUnit} {done ordered : List Str}
  {before after : Log}

theorem through_of_postEach
    (posted : postEach env encode undo done ordered before = .ok ⟨⟩ after) :
    ∃ sent, after = before ++ sent ∧ Through encode ordered sent := by
  induction ordered generalizing done before with
  | nil =>
      cases posted
      exact ⟨[], (List.append_nil _).symm, through_nil _⟩
  | cons xpath rest ih =>
      obtain ⟨message, log, attempted, posted⟩ := bind_eq_ok.mp posted
      obtain ⟨encoded, rfl⟩ := attempt_eq_ok.mp attempted
      cases message with
      | none =>
          obtain ⟨sent, rfl, through⟩ := ih posted
          exact ⟨sent, rfl, through.skip encoded⟩
      | some message =>
          dsimp only at posted
          rw [post_bind] at posted
          cases answers : env.answers log.length with
          | true =>
              simp only [answers, if_true] at posted
              obtain ⟨sent, rfl, through⟩ := ih posted
              exact ⟨(message, true) :: sent, List.append_assoc .., through.answered encoded⟩
          | false =>
              simp only [answers, Bool.false_eq_true, if_false] at posted
              obtain ⟨_, _, _, impossible⟩ := bind_eq_ok.mp posted
              cases impossible

/-- A phase that halts has gone through some of its nodes, and then a message could not be made, or
it was not answered and the nodes before it are undone. -/
theorem through_of_postEach_error {reason : Halt}
    (halted : postEach env encode undo done ordered before = .error reason after) :
    ∃ taken sent, Through encode taken sent ∧
      (taken <+: ordered ∧ after = before ++ sent ∨
        ∃ xpath message, taken ++ [xpath] <+: ordered ∧ encode xpath = .ok (some message) ∧
          after = final (undo (taken.reverse ++ done) (before ++ sent ++ [(message, false)]))) := by
  induction ordered generalizing done before with
  | nil => cases halted
  | cons xpath rest ih =>
      rcases bind_eq_error.mp halted with attempted | ⟨message, log, attempted, halted⟩
      · obtain ⟨_, rfl⟩ := attempt_eq_error.mp attempted
        exact ⟨[], [], through_nil _, .inl ⟨List.nil_prefix, (List.append_nil _).symm⟩⟩
      obtain ⟨encoded, rfl⟩ := attempt_eq_ok.mp attempted
      -- what is undone later has this node behind it
      have further : ∀ {taken : List Str}, taken.reverse ++ xpath :: done =
          (xpath :: taken).reverse ++ done := by
        intro taken
        rw [List.reverse_cons, List.append_assoc]
        rfl
      cases message with
      | none =>
          obtain ⟨taken, sent, through, ends⟩ := ih halted
          refine ⟨xpath :: taken, sent, through.skip encoded, ?_⟩
          rcases ends with ⟨first, same⟩ | ⟨other, message, first, failing, undone⟩
          · exact .inl ⟨List.cons_prefix_cons.mpr ⟨rfl, first⟩, same⟩
          · exact .inr ⟨other, message, List.cons_prefix_cons.mpr ⟨rfl, first⟩, failing,
              further ▸ undone⟩
      | some message =>
          dsimp only at halted
          rw [post_bind] at halted
          cases answers : env.answers log.length with
          | true =>
              simp only [answers, if_true] at halted
              obtain ⟨taken, sent, through, ends⟩ := ih halted
              refine ⟨xpath :: taken, (message, true) :: sent, through.answered encoded, ?_⟩
              rcases ends with ⟨first, same⟩ | ⟨other, failed, first, failing, undone⟩
              · exact .inl ⟨List.cons_prefix_cons.mpr ⟨rfl, first⟩,
                  same.trans (List.append_assoc ..)⟩
              · refine .inr ⟨other, failed, List.cons_prefix_cons.mpr ⟨rfl, first⟩, failing, ?_⟩
                rw [undone, further]
                simp only [List.append_assoc, List.cons_append, List.nil_append]
          | false =>
              simp only [answers, Bool.false_eq_true, if_false] at halted
              refine ⟨[], [], through_nil _, .inr ⟨xpath, message,
                List.cons_prefix_cons.mpr ⟨rfl, List.nil_prefix⟩, encoded, ?_⟩⟩
              rw [List.append_nil]
              rcases bind_eq_error.mp halted with stopped | ⟨_, _, undone, thrown⟩
              · exact (congrArg final stopped).symm
              · cases thrown
                exact (congrArg final undone).symm

/-- What the routines that take messages back do at a node. -/
def takeBack (env : Env) (encode : Str → Attempt (Option Post)) (xpath : Str) : Posting PUnit := do
  match ← attempt (encode xpath) with
  | none => pure ⟨⟩
  | some message => do
    if ← post env message then pure ⟨⟩ else throw .exited

/-- Taking messages back is a phase, too. -/
theorem inTurn_of_takeBack (env : Env) (encode : Str → Attempt (Option Post)) (nodes : List Str)
    (before : Log) :
    ∃ sent, final (forEach (takeBack env encode) nodes before) = before ++ sent ∧
      InTurn encode nodes sent := by
  induction nodes generalizing before with
  | nil => exact ⟨[], (List.append_nil _).symm, inTurn_nil _ _⟩
  | cons xpath rest ih =>
      cases encoded : encode xpath with
      | error reason =>
          have stops : takeBack env encode xpath before = .error reason before :=
            bind_of_error (attempt_eq_error.mpr ⟨encoded, rfl⟩)
          refine ⟨[], ?_, inTurn_nil _ _⟩
          rw [forEach, bind_of_error stops, List.append_nil]
          rfl
      | ok message =>
          have goes : takeBack env encode xpath before = _ :=
            bind_of_ok (attempt_eq_ok.mpr ⟨encoded, rfl⟩)
          cases message with
          | none =>
              obtain ⟨sent, ends, turn⟩ := ih before
              exact ⟨sent, (congrArg final (forEach_cons_of_ok goes)).trans ends, turn.skip encoded⟩
          | some message =>
              dsimp only at goes
              rw [post_bind] at goes
              cases answers : env.answers before.length with
              | true =>
                  simp only [answers, if_true] at goes
                  obtain ⟨sent, ends, turn⟩ := ih (before ++ [(message, true)])
                  refine ⟨(message, true) :: sent, ?_, turn.answered encoded⟩
                  rw [forEach_cons_of_ok goes, ends, List.append_assoc]
                  rfl
              | false =>
                  simp only [answers, Bool.false_eq_true, if_false] at goes
                  refine ⟨[(message, false)], ?_,
                    (through_nil encode).inTurn_unanswered encoded
                      (List.cons_prefix_cons.mpr ⟨rfl, List.nil_prefix⟩)⟩
                  rw [forEach, bind_of_error goes]
                  rfl

end Phases

/-- The messages of a routine, phase by phase: the nodes that its patch removes from the tree it is
run on and those that it updates, in the order of their dependencies, with what each message is made
of. -/
structure Phases (env : Env) (site : Site) (patch jconfig : Json) (node_config : Node) where
  items : List DiffItem
  removal : Removal
  json_config : Json
  edited : Node
  updated : List Str
  deletes : Log
  updates : Log
  revokes : Log
  restores : Log
  parsed : patch.patchItems = .ok items
  planned : planRemoval env patch jconfig node_config = .ok removal
  removedOnce : removal.ordered.Nodup
  removedUpperLast : UpperFirst removal.ordered.reverse
  updatedOnce : updated.Nodup
  updatedUpperFirst : UpperFirst updated
  deleted : InTurn (deleteAction env site.configFile) removal.ordered deletes
  afterDeletes : updates ≠ [] →
    Through (deleteAction env site.configFile) removal.ordered deletes ∧
      editNodes env items removal node_config = .ok json_config edited ∧
      orderUpdates env items edited = .ok updated
  updating : InTurn (updateAction env jconfig json_config) updated updates
  afterUpdates : revokes ≠ [] → ∃ entry ∈ updates.getLast?, entry.2 = false
  revoked : TakesBack (updateAction env jconfig json_config) (revokeAction env edited) updated
    updates revokes
  restored : TakesBack (deleteAction env site.configFile)
    (restoreAction env site.runningConfig site.runningJson) removal.ordered deletes restores

/-- The messages in the order in which they are sent. -/
def Phases.log {env : Env} {site : Site} {patch jconfig : Json} {node_config : Node}
    (phases : Phases env site patch jconfig node_config) : Log :=
  phases.deletes ++ phases.updates ++ phases.revokes ++ phases.restores

section Routine

variable {env : Env} {site : Site} {patch jconfig : Json} {before after : Draft}
  {items : List DiffItem} {removal : Removal} {index : References}

theorem takeBack_removed (env : Env) (site : Site) (nodes : List Str) :
    rollback_removed_nodes env site nodes =
      forEach (takeBack env (restoreAction env site.runningConfig site.runningJson)) nodes := rfl

theorem takeBack_added (env : Env) (node_config : Node) (nodes : List Str) :
    rollback_added_nodes env node_config nodes =
      forEach (takeBack env (revokeAction env node_config)) nodes := rfl

/-- The messages of an update, returned from or halted in, with the revocations. -/
structure Updating (env : Env) (jconfig : Json) (items : List DiffItem) (removal : Removal)
    (node_config : Node) where
  json_config : Json
  edited : Node
  updated : List Str
  updates : Log
  revokes : Log
  updatedOnce : updated.Nodup
  updatedUpperFirst : UpperFirst updated
  prepared : updates ≠ [] → editNodes env items removal node_config = .ok json_config edited ∧
    orderUpdates env items edited = .ok updated
  updating : InTurn (updateAction env jconfig json_config) updated updates
  afterUpdates : revokes ≠ [] → ∃ entry ∈ updates.getLast?, entry.2 = false
  revoked : TakesBack (updateAction env jconfig json_config) (revokeAction env edited) updated
    updates revokes

theorem orders_of_prepared {draft : Draft} {json_config : Json} {edited : Node}
    {ordered : List Str} {saved : References}
    (prepared : Prepared env items removal draft json_config edited ordered saved) :
    editNodes env items removal draft.nodeConfig = .ok json_config edited ∧
      orderUpdates env items edited = .ok ordered := by
  refine ⟨prepared.edits, ?_⟩
  obtain ⟨_, sorted, planned⟩ := except_bind_eq_ok.mp prepared.planned
  obtain ⟨_, _, planned⟩ := except_bind_eq_ok.mp planned
  obtain ⟨_, _, finished⟩ := except_bind_eq_ok.mp planned
  cases finished
  exact sorted

theorem exists_updating (env : Env) (jconfig : Json) (items : List DiffItem) (removal : Removal)
    (draft : Draft) :
    ∃ messages : Updating env jconfig items removal draft.nodeConfig,
      (final (performUpdate env jconfig items removal draft)).posts =
        draft.posts ++ messages.updates ++ messages.revokes := by
  have quiet : ∀ {last : Draft}, last.posts = draft.posts →
      ∃ messages : Updating env jconfig items removal draft.nodeConfig,
        last.posts = draft.posts ++ messages.updates ++ messages.revokes := fun same =>
    ⟨⟨.null, .empty, [], [], [], .nil, .nil, absurd rfl, inTurn_nil _ _, absurd rfl,
      (through_nil _).takesBack List.nil_prefix (inTurn_nil _ _)⟩, by simp [same]⟩
  cases ran : performUpdate env jconfig items removal draft with
  | ok json_config last =>
      obtain ⟨edited, ordered, saved, log, prepared, posted, rfl⟩ := performUpdate_eq_ok.mp ran
      obtain ⟨once, upperFirst⟩ := updated_upperFirst prepared
      rw [postUpdates_eq] at posted
      obtain ⟨sent, rfl, through⟩ := through_of_postEach posted
      exact ⟨⟨json_config, edited, ordered, sent, [], once, upperFirst,
        fun _ => orders_of_prepared prepared, through.inTurn List.prefix_rfl, absurd rfl,
        through.takesBack List.prefix_rfl (inTurn_nil _ _)⟩, (List.append_nil _).symm⟩
  | error reason last =>
      rcases performUpdate_eq_error.mp ran with ⟨edited, _, rfl⟩ | ⟨json, edited, _, _, rfl⟩ |
        ⟨json, edited, ordered, saved, log, prepared, posted, rfl⟩
      · exact quiet rfl
      · exact quiet rfl
      · obtain ⟨once, upperFirst⟩ := updated_upperFirst prepared
        rw [postUpdates_eq] at posted
        obtain ⟨taken, sent, through, ⟨first, rfl⟩ | ⟨xpath, message, first, failing, undone⟩⟩ :=
          through_of_postEach_error posted
        · exact ⟨⟨json, edited, ordered, sent, [], once, upperFirst,
            fun _ => orders_of_prepared prepared, through.inTurn first, absurd rfl,
            through.takesBack first (inTurn_nil _ _)⟩, (List.append_nil _).symm⟩
        · obtain ⟨revokes, ends, revoked⟩ := inTurn_of_takeBack env (revokeAction env edited)
            (taken.reverse ++ []) (draft.posts ++ sent ++ [(message, false)])
          rw [List.append_nil] at revoked
          refine ⟨⟨json, edited, ordered, sent ++ [(message, false)], revokes, once, upperFirst,
            fun _ => orders_of_prepared prepared, through.inTurn_unanswered failing first,
            fun _ => ⟨_, List.getLast?_concat, rfl⟩,
            through.takesBack_unanswered ((List.prefix_append _ _).trans first) revoked message⟩, ?_⟩
          rw [takeBack_added, ends] at undone
          rw [final_error, undone, ← List.append_assoc draft.posts]

/-- A compensation adds its own messages. -/
theorem restoring_phase {α : Type} (env : Env) (site : Site) (body : EStateM Halt Draft α)
    (nodes : List Str) (draft : Draft) :
    ∃ restores,
      (final (compensated (· = .rejected) (onPosts (rollback_removed_nodes env site nodes)) body
        draft)).posts = (final (body draft)).posts ++ restores ∧
      InTurn (restoreAction env site.runningConfig site.runningJson) nodes restores := by
  cases ran : body draft with
  | ok value last =>
      refine ⟨[], ?_, inTurn_nil _ _⟩
      rw [compensated_eq_ok.mpr ran, List.append_nil]
  | error reason last =>
      by_cases caught : reason = .rejected
      · obtain ⟨restores, ends, turn⟩ := inTurn_of_takeBack env
          (restoreAction env site.runningConfig site.runningJson) nodes last.posts
        refine ⟨restores, ?_, turn⟩
        have undoes : final (onPosts (rollback_removed_nodes env site nodes) last) =
            { last with posts := last.posts ++ restores } := by
          rw [takeBack_removed, ← ends, onPosts]
          exact final_focus _ last
        have whole : compensated (· = .rejected) (onPosts (rollback_removed_nodes env site nodes))
            body draft = (onPosts (rollback_removed_nodes env site nodes) >>= fun _ =>
              throw reason) last := by
          unfold compensated
          rw [ran]
          simp only [caught, decide_true, cond_true]
        rw [whole]
        exact congrArg Draft.posts ((final_bind_throw _ _ _).trans undoes)
      · refine ⟨[], ?_, inTurn_nil _ _⟩
        rw [compensated_of_uncaught ran (decide_eq_false caught), List.append_nil]

/-- Whatever comes of the routine, it has sent nothing, or messages in four phases. -/
theorem routine_phases (env : Env) (site : Site) (patch jconfig : Json) (before : Draft) :
    (final (fMakeCandidateConfigInternal env site patch jconfig before)).posts = before.posts ∨
      ∃ phases : Phases env site patch jconfig before.nodeConfig,
        (final (fMakeCandidateConfigInternal env site patch jconfig before)).posts =
          before.posts ++ phases.log := by
  rcases begun_or_unwritten env site patch jconfig before with
    ⟨reason, unwritten⟩ | ⟨items, removal, index, begun⟩
  · left
    rw [unwritten]
    rfl
  right
  obtain ⟨removedOnce, removedUpperLast⟩ := removed_upperLast begun.planned begun.parsed
  rw [routine_of_begun begun]
  cases posted : postDeletions env site [] removal.ordered before.posts with
  | ok value log =>
      have deletes : onPosts (postDeletions env site [] removal.ordered)
          { before with references := index } = .ok value ⟨before.nodeConfig, index, log⟩ :=
        focus_eq_ok.mpr ⟨log, posted, rfl⟩
      rw [bind_of_ok deletes]
      rw [postDeletions_eq] at posted
      obtain ⟨sent, rfl, through⟩ := through_of_postEach posted
      obtain ⟨restores, ends, restored⟩ := restoring_phase env site
        (performUpdate env jconfig items removal) removal.ordered.reverse
        ⟨before.nodeConfig, index, before.posts ++ sent⟩
      obtain ⟨messages, updating⟩ := exists_updating env jconfig items removal
        ⟨before.nodeConfig, index, before.posts ++ sent⟩
      refine ⟨⟨items, removal, messages.json_config, messages.edited, messages.updated, sent,
        messages.updates, messages.revokes, restores, begun.parsed, begun.planned, removedOnce,
        removedUpperLast, messages.updatedOnce, messages.updatedUpperFirst,
        through.inTurn List.prefix_rfl, fun some => ⟨through, messages.prepared some⟩,
        messages.updating, messages.afterUpdates, messages.revoked,
        through.takesBack List.prefix_rfl restored⟩, ?_⟩
      rw [ends, updating]
      simp only [Phases.log, List.append_assoc]
  | error reason log =>
      have deletes : onPosts (postDeletions env site [] removal.ordered)
          { before with references := index } = .error reason ⟨before.nodeConfig, index, log⟩ :=
        focus_eq_error.mpr ⟨log, posted, rfl⟩
      rw [bind_of_error deletes]
      rw [postDeletions_eq] at posted
      have stopped : ∃ deletes restores, log = before.posts ++ deletes ++ restores ∧
          InTurn (deleteAction env site.configFile) removal.ordered deletes ∧
          TakesBack (deleteAction env site.configFile)
            (restoreAction env site.runningConfig site.runningJson) removal.ordered deletes
            restores := by
        obtain ⟨taken, sent, through, ⟨first, rfl⟩ | ⟨xpath, message, first, failing, undone⟩⟩ :=
          through_of_postEach_error posted
        · exact ⟨sent, [], (List.append_nil _).symm, through.inTurn first,
            through.takesBack first (inTurn_nil _ _)⟩
        · obtain ⟨restores, ends, restored⟩ := inTurn_of_takeBack env
            (restoreAction env site.runningConfig site.runningJson) (taken.reverse ++ [])
            (before.posts ++ sent ++ [(message, false)])
          rw [takeBack_removed, ends] at undone
          rw [List.append_nil] at restored
          exact ⟨sent ++ [(message, false)], restores,
            undone.trans (by simp only [List.append_assoc]),
            through.inTurn_unanswered failing first,
            through.takesBack_unanswered ((List.prefix_append _ _).trans first) restored message⟩
      obtain ⟨sent, restores, same, turn, restored⟩ := stopped
      refine ⟨⟨items, removal, .null, .empty, [], sent, [], [], restores, begun.parsed,
        begun.planned, removedOnce, removedUpperLast, .nil, .nil, turn, absurd rfl,
        inTurn_nil _ _, absurd rfl, (through_nil _).takesBack List.nil_prefix (inTurn_nil _ _),
        restored⟩, ?_⟩
      rw [final_error, same]
      simp only [Phases.log, List.append_nil, List.append_assoc]

end Routine

namespace Manager

variable {env : Env}

/-- The messages of one call: none, or the phases of its routine. A candidate is made on a copy of
the running tree, and cancelled on its own tree. -/
inductive Sends (env : Env) (manager : Manager) : Op → Log → Prop
  | nothing (op : Op) : Sends env manager op []
  | makeCandidateConfig {patch : Json} {root : Node} (admitted : Admitted env manager patch root)
      (phases : Phases env manager.site patch manager.runningJson root) :
      Sends env manager (.makeCandidateConfig patch) phases.log
  | cancelCandidateConfig {patch jconfig : Json} {tree : Node}
      (cancellable : Cancellable env manager patch jconfig tree)
      (phases : Phases env manager.site patch jconfig tree) :
      Sends env manager .cancelCandidateConfig phases.log

theorem sends_make (patch : Json) (manager : Manager) :
    ∃ sent, Sends env manager (.makeCandidateConfig patch) sent ∧
      (final (makeCandidateConfig env patch manager)).posts = manager.posts ++ sent := by
  by_cases admitted : ∃ root, Admitted env manager patch root
  · obtain ⟨root, admitted⟩ := admitted
    have posts : (final (makeCandidateConfig env patch manager)).posts =
        (final (fMakeCandidateConfigInternal env manager.site patch manager.runningJson
          (manager.runningDraft root))).posts := by
      rw [make_of_admitted admitted]
      split
      · next ran =>
          rw [ran]
          rfl
      · next ran =>
          rw [ran]
          split <;> rfl
    rw [posts]
    rcases routine_phases env manager.site patch manager.runningJson (manager.runningDraft root) with
      quiet | ⟨phases, ends⟩
    · exact ⟨[], .nothing _, quiet.trans (List.append_nil _).symm⟩
    · exact ⟨phases.log, .makeCandidateConfig admitted phases, ends⟩
  · obtain ⟨reason, unchanged⟩ := make_of_not_admitted admitted
    refine ⟨[], .nothing _, ?_⟩
    rw [unchanged]
    exact (List.append_nil _).symm

theorem sends_cancel (manager : Manager) :
    ∃ sent, Sends env manager .cancelCandidateConfig sent ∧
      (final (cancelCandidateConfig env manager)).posts = manager.posts ++ sent := by
  by_cases cancellable : ∃ patch jconfig tree, Cancellable env manager patch jconfig tree
  · obtain ⟨patch, jconfig, tree, cancellable⟩ := cancellable
    have posts : (final (cancelCandidateConfig env manager)).posts =
        (final (fMakeCandidateConfigInternal env manager.site patch jconfig
          (manager.runningDraft tree))).posts := by
      rw [cancel_of_cancellable cancellable]
      split
      all_goals
        next ran =>
          rw [ran]
          rfl
    rw [posts]
    rcases routine_phases env manager.site patch jconfig (manager.runningDraft tree) with
      quiet | ⟨phases, ends⟩
    · exact ⟨[], .nothing _, quiet.trans (List.append_nil _).symm⟩
    · exact ⟨phases.log, .cancelCandidateConfig cancellable phases, ends⟩
  · obtain ⟨reason, unchanged⟩ := cancel_of_not_cancellable cancellable
    refine ⟨[], .nothing _, ?_⟩
    rw [unchanged]
    exact (List.append_nil _).symm

/-- Whatever comes of a call, its messages are its own. -/
theorem sends_run (op : Op) (manager : Manager) :
    ∃ sent, Sends env manager op sent ∧
      (final (run env op manager)).posts = manager.posts ++ sent := by
  cases op with
  | makeCandidateConfig patch => exact sends_make patch manager
  | cancelCandidateConfig => exact sends_cancel manager
  | applyCandidateConfig files =>
      refine ⟨[], .nothing _, ?_⟩
      rcases apply_cases files manager with ⟨reason, unchanged⟩ | ⟨_, _, applied⟩
      · rw [run, unchanged]
        exact (List.append_nil _).symm
      · rw [run, applied]
        exact (List.append_nil _).symm

end Manager

/-- What a load has sent: a message for each node of the configuration that has one, all of them
answered. -/
def StartedFrom (env : Env) (jconfig : Json) (log : Log) : Prop :=
  ∃ reloaded ordered, fReloadNodeConfig env jconfig [] = .ok reloaded ∧
    NodeDependencyManager.resolve env reloaded.1 = .ok ordered ∧ ordered.Nodup ∧
    UpperFirst ordered ∧ Through (startupAction env (some jconfig)) ordered log

section Runs

variable {env : Env} {first : Manager}

theorem through_of_postStartup {config_file : Option Json} {acknowledged : Bool}
    {ordered : List Str} {before after : Log}
    (posted : postStartup env config_file acknowledged ordered before = .ok ⟨⟩ after) :
    ∃ sent, after = before ++ sent ∧ Through (startupAction env config_file) ordered sent := by
  induction ordered generalizing acknowledged before with
  | nil =>
      cases posted
      exact ⟨[], (List.append_nil _).symm, through_nil _⟩
  | cons xpath rest ih =>
      obtain ⟨message, log, attempted, posted⟩ := bind_eq_ok.mp posted
      obtain ⟨encoded, rfl⟩ := attempt_eq_ok.mp attempted
      cases message with
      | none =>
          obtain ⟨sent, rfl, through⟩ := ih posted
          exact ⟨sent, rfl, through.skip encoded⟩
      | some message =>
          dsimp only at posted
          rw [post_bind] at posted
          cases answers : env.answers log.length with
          | true =>
              simp only [answers, if_true] at posted
              obtain ⟨sent, rfl, through⟩ := ih posted
              exact ⟨(message, true) :: sent, List.append_assoc .., through.answered encoded⟩
          | false =>
              simp only [answers, Bool.false_eq_true, if_false] at posted
              split at posted <;> cases posted

theorem started_of_load {jconfig : Json} {log : Log}
    (loads : Manager.load env jconfig [] = .ok first log) : StartedFrom env jconfig first.posts := by
  obtain ⟨reloaded, between, attempted, loads⟩ := bind_eq_ok.mp loads
  obtain ⟨reload, rfl⟩ := attempt_eq_ok.mp attempted
  obtain ⟨_, _, performed, loads⟩ := bind_eq_ok.mp loads
  obtain ⟨ordered, _, attempted, performed⟩ := bind_eq_ok.mp performed
  obtain ⟨resolved, rfl⟩ := attempt_eq_ok.mp attempted
  obtain ⟨_, _, attempted, posted⟩ := bind_eq_ok.mp performed
  obtain ⟨_, rfl⟩ := attempt_eq_ok.mp attempted
  obtain ⟨sent, same, through⟩ := through_of_postStartup posted
  obtain ⟨once, upperFirst⟩ := resolve_upperFirst resolved
  rw [get_bind] at loads
  cases loads
  cases same
  exact ⟨reloaded, ordered, reload, resolved, once, upperFirst, through⟩

/-- What a call adds to the messages is its own. -/
def Journals (env : Env) (before : Manager) (op : Manager.Op) (after : Manager) : Prop :=
  ∃ sent, Manager.Sends env before op sent ∧ after.posts = before.posts ++ sent

/-- In every run from a load, whatever the backend answers and whatever comes of the calls, the
messages are those of the nodes that were loaded, and then those of each call, in their phases. -/
theorem journal_along {jconfig : Json} {log : Log}
    (loads : Manager.load env jconfig [] = .ok first log)
    {trail : List (Manager.Op × Manager)}
    (run : Concurrent.Along (Manager.Step env) first trail) :
    StartedFrom env jconfig first.posts ∧ Concurrent.Along (Journals env) first trail := by
  refine ⟨started_of_load loads, run.imp ?_⟩
  rintro before op after ⟨_, rfl⟩
  exact Manager.sends_run op before

end Runs

end FlexConfig

namespace FlexConfig.Sample

def changedSettings : Json := object [("set", object [("a", text "1"), ("b", text "1")])]

/-- A setting is removed, another one changed, and a third one added. -/
def swapSettings : Json := .array [operation "remove" "/set/a" none,
  operation "replace" "/set/b" (some (text "2")), operation "add" "/set/c" (some (text "3"))]

/-- The change is not answered, and the call ends with all four phases. -/
theorem journal_along_refused :
    ∃ first log last, Manager.load (unansweredSetting 4) changedSettings [] = .ok first log ∧
      Concurrent.Along (Journals (unansweredSetting 4)) first
        [(.makeCandidateConfig swapSettings, last)] ∧
      (last.posts.drop 2).map (fun entry => (entry.1.action.operation, entry.1.action.path)) =
        [("remove".toList, "/set/a".toList), ("add".toList, "/set/c".toList),
          ("replace".toList, "/set/b".toList), ("remove".toList, "/set/c".toList),
          ("add".toList, "/set/a".toList)] := by
  have refused : ∃ last ∈ Manager.reached (unansweredSetting 4) changedSettings
      [.makeCandidateConfig swapSettings],
      (last.posts.drop 2).map (fun entry => (entry.1.action.operation, entry.1.action.path)) =
        [("remove".toList, "/set/a".toList), ("add".toList, "/set/c".toList),
          ("replace".toList, "/set/b".toList), ("remove".toList, "/set/c".toList),
          ("add".toList, "/set/a".toList)] := by
    decide +kernel
  obtain ⟨last, reaches, phases⟩ := refused
  rw [Option.mem_def, Manager.reached] at reaches
  split at reaches
  case h_2 => cases reaches
  next first log loads =>
  rw [Manager.afterCalls] at reaches
  split at reaches
  case isFalse => cases reaches
  next goes =>
  have run : Concurrent.Along (Manager.Step (unansweredSetting 4)) first
      [(.makeCandidateConfig swapSettings, last)] :=
    ⟨⟨goes, (Option.some.inj reaches).symm⟩, trivial⟩
  exact ⟨first, log, last, loads, (journal_along loads run).2, phases⟩

end FlexConfig.Sample
