import FlexConfig.Backend.Messages
import FlexConfig.Manager.Faults

/-! # Where a refused call stops

A call that is refused after it has begun to post answers the acknowledged messages with
compensating ones, the last first: the updates are revoked and the deletions restored. A call
refused by the reload posts no compensation.
-/

namespace FlexConfig

open Procedure ItemStore

section Messages

/-- The changes that messages ask for, where they can be encoded and are posted. -/
def changesIn (messages : List (Attempt (Option Post))) : List (Change Str Json) :=
  messages.filterMap fun message => message.toOption.join.map fun post => post.action.change

theorem changesIn_map (encode : Str → Attempt (Option Post)) (ordered : List Str) :
    changesIn (ordered.map encode) = changesAt encode ordered :=
  List.filterMap_map

theorem changesIn_append (first second : List (Attempt (Option Post))) :
    changesIn (first ++ second) = changesIn first ++ changesIn second :=
  List.filterMap_append

variable {env : Env}

/-- Messages are all encoded and answered, or the posting halts: it ends the process, or for the
reason one of them cannot be encoded. -/
theorem postMessages_cases (messages : List (Attempt (Option Post))) (before : Log) :
    (∃ after, postMessages env messages before = .ok ⟨⟩ after ∧
        (∀ message ∈ messages, ∃ post, message = .ok post) ∧
        backendOf after = applyAll (changesIn messages) (backendOf before)) ∨
      ∃ reason after, postMessages env messages before = .error reason after ∧
        (reason = .exited ∨ .error reason ∈ messages) := by
  induction messages generalizing before with
  | nil => exact Or.inl ⟨before, rfl, fun _ impossible => absurd impossible List.not_mem_nil, rfl⟩
  | cons message rest ih =>
      rw [postMessages_cons]
      cases message with
      | error reason => exact Or.inr ⟨reason, before, rfl, Or.inr List.mem_cons_self⟩
      | ok message =>
          cases message with
          | none =>
              rcases ih before with ⟨after, posted, encodes, backend⟩ |
                ⟨reason, after, halted, why⟩
              · exact Or.inl ⟨after, posted, List.forall_mem_cons.mpr ⟨⟨none, rfl⟩, encodes⟩, backend⟩
              · exact Or.inr ⟨reason, after, halted, why.imp_right (List.mem_cons_of_mem _)⟩
          | some message =>
              by_cases answered : env.answers before.length = true
              · dsimp only
                rw [if_pos answered]
                rcases ih (before ++ [(message, true)]) with ⟨after, posted, encodes, backend⟩ |
                  ⟨reason, after, halted, why⟩
                · refine Or.inl
                    ⟨after, posted, List.forall_mem_cons.mpr ⟨⟨_, rfl⟩, encodes⟩, ?_⟩
                  rw [backend, backendOf_append]
                  rfl
                · exact Or.inr ⟨reason, after, halted, why.imp_right (List.mem_cons_of_mem _)⟩
              · dsimp only
                rw [if_neg answered]
                exact Or.inr ⟨.exited, _, rfl, Or.inl rfl⟩

/-- Messages whose encoding is not refused are not refused. -/
theorem postMessages_avoids {messages : List (Attempt (Option Post))} {before after : Log}
    {reason : Halt} (avoids : ∀ message ∈ messages, Avoids Halt.rejected message)
    (halted : postMessages env messages before = .error reason after) : reason ≠ .rejected := by
  rcases postMessages_cases messages before with ⟨_, posted, _, _⟩ | ⟨why, log, stopped, cause⟩
  · cases posted.symm.trans halted
  · cases stopped.symm.trans halted
    rintro rfl
    rcases cause with exits | member
    · cases exits
    · exact avoids _ member rfl

/-- What a refusal with compensations ends in: the process ends, a compensation cannot be
encoded, or the call is refused with all of them acknowledged. -/
theorem refusal_cases {messages : List (Attempt (Option Post))} {before after : Log} {reason : Halt}
    (avoids : ∀ message ∈ messages, Avoids Halt.rejected message)
    (halted : (postMessages env messages >>= fun _ => throw .rejected : Posting PUnit) before =
      .error reason after) :
    reason = .exited ∨
      (reason ≠ .rejected ∧ .error reason ∈ messages) ∨
      (reason = .rejected ∧ (∀ message ∈ messages, ∃ post, message = .ok post) ∧
        backendOf after = applyAll (changesIn messages) (backendOf before)) := by
  rcases postMessages_cases messages before with ⟨log, posted, encodes, backend⟩ |
    ⟨why, log, stopped, cause⟩
  · rw [bind_of_ok posted] at halted
    cases halted
    exact Or.inr (Or.inr ⟨rfl, encodes, backend⟩)
  · rw [bind_of_error stopped] at halted
    cases halted
    rcases cause with exits | member
    · exact Or.inl exits
    · refine Or.inr (Or.inl ⟨fun rejected => ?_, member⟩)
      exact avoids _ member (congrArg Except.error rejected)

section Each

variable {encode : Str → Attempt (Option Post)} {undo : List Str → Posting PUnit}

/-- The posting for nodes stops at an unanswered message, after those for `done`. -/
def Unanswered (env : Env) (encode : Str → Attempt (Option Post)) (ordered : List Str)
    (before : Log) (done : List Str) (after : Log) : Prop :=
  ∃ xpath rest message log, ordered = done ++ xpath :: rest ∧
    postMessages env (done.map encode) before = .ok ⟨⟩ log ∧ encode xpath = .ok (some message) ∧
    env.answers log.length = false ∧ after = log ++ [(message, false)]

/-- An unanswered message changes nothing. -/
theorem Unanswered.backend {ordered done : List Str} {before after : Log}
    (unanswered : Unanswered env encode ordered before done after) :
    backendOf after = applyAll (changesIn (done.map encode)) (backendOf before) := by
  obtain ⟨_, _, message, log, _, posted, _, _, rfl⟩ := unanswered
  rw [backendOf_append]
  rcases postMessages_cases (done.map encode) before with ⟨_, posted', _, backend⟩ |
    ⟨_, _, halted, _⟩
  · cases posted.symm.trans posted'
    exact backend
  · cases posted.symm.trans halted

/-- Messages for nodes are all answered, one cannot be encoded, or one is not answered and the
nodes before it are undone. -/
theorem postEach_cases (done ordered : List Str) (before : Log) :
    (∃ after, postEach env encode undo done ordered before = .ok ⟨⟩ after) ∨
      (∃ xpath reason after, encode xpath = .error reason ∧
        postEach env encode undo done ordered before = .error reason after) ∨
      ∃ more after, Unanswered env encode ordered before more after ∧
        postEach env encode undo done ordered before =
          (undo (more.reverse ++ done) >>= fun _ => throw .rejected) after := by
  induction ordered generalizing done before with
  | nil => exact Or.inl ⟨before, rfl⟩
  | cons xpath rest ih =>
      rw [postEach_cons]
      cases encoded : encode xpath with
      | error reason => exact Or.inr (Or.inl ⟨xpath, reason, before, encoded, rfl⟩)
      | ok message =>
          have extend {log : Log} (same : ∀ more : List (Attempt (Option Post)),
              postMessages env (encode xpath :: more) before = postMessages env more log)
              {more : List Str} {after : Log}
              (unanswered : Unanswered env encode rest log more after) :
              Unanswered env encode (xpath :: rest) before (xpath :: more) after := by
            obtain ⟨other, later, unsent, between, rfl, posted, encodes, fails, rfl⟩ := unanswered
            exact ⟨other, later, unsent, between, rfl, (same _).trans posted, encodes, fails, rfl⟩
          have turned (more : List Str) : (xpath :: more).reverse ++ done =
              more.reverse ++ xpath :: done := by
            simp
          cases message with
          | none =>
              rcases ih (xpath :: done) before with all | unencoded | ⟨more, after, unanswered, same⟩
              · exact Or.inl all
              · exact Or.inr (Or.inl unencoded)
              · refine Or.inr (Or.inr ⟨xpath :: more, after, extend (fun _ => ?_) unanswered, ?_⟩)
                · rw [postMessages_cons, encoded]
                · rw [turned]
                  exact same
          | some message =>
              by_cases answered : env.answers before.length = true
              · dsimp only
                rw [if_pos answered]
                rcases ih (xpath :: done) (before ++ [(message, true)]) with
                  all | unencoded | ⟨more, after, unanswered, same⟩
                · exact Or.inl all
                · exact Or.inr (Or.inl unencoded)
                · refine Or.inr (Or.inr ⟨xpath :: more, after, extend (fun _ => ?_) unanswered, ?_⟩)
                  · rw [postMessages_cons, encoded]
                    dsimp only
                    rw [if_pos answered]
                  · rw [turned]
                    exact same
              · dsimp only
                rw [if_neg answered]
                refine Or.inr (Or.inr ⟨[], _, ⟨xpath, rest, message, before, rfl, rfl, encoded, ?_, rfl⟩,
                  rfl⟩)
                exact Bool.not_eq_true _ ▸ answered

/-- At an unanswered message the nodes before it are undone. -/
theorem Unanswered.postEach {done ordered more : List Str} {before after : Log}
    (unanswered : Unanswered env encode ordered before more after) :
    postEach env encode undo done ordered before =
      (undo (more.reverse ++ done) >>= fun _ => throw .rejected) after := by
  obtain ⟨xpath, rest, message, log, rfl, posted, encodes, fails, rfl⟩ := unanswered
  induction more generalizing done before with
  | nil =>
      cases posted
      rw [List.nil_append, postEach_cons, encodes]
      dsimp only
      rw [if_neg (by rw [fails]; exact Bool.false_ne_true)]
      rfl
  | cons first others ih =>
      rw [List.cons_append, postEach_cons]
      rw [List.map_cons, postMessages_cons] at posted
      have turned : (first :: others).reverse ++ done = others.reverse ++ first :: done := by
        simp
      cases encoded : encode first with
      | error reason =>
          rw [encoded] at posted
          cases posted
      | ok message' =>
          rw [encoded] at posted
          cases message' with
          | none =>
              rw [turned]
              exact ih posted
          | some message' =>
              dsimp only at posted ⊢
              split at posted
              · next answered =>
                  rw [if_pos answered, turned]
                  exact ih posted
              · cases posted

end Each

end Messages

section Exchange

/-- A message with the compensation that is due for it. -/
structure Exchange where
  message : Attempt (Option Post)
  compensation : Attempt (Option Post)

def messagesOf (exchanges : List Exchange) : List (Attempt (Option Post)) :=
  exchanges.map Exchange.message

/-- The compensations for a list of messages, that for the last one first. -/
def compensationsOf (exchanges : List Exchange) : List (Attempt (Option Post)) :=
  exchanges.reverse.map Exchange.compensation

theorem messagesOf_append (first second : List Exchange) :
    messagesOf (first ++ second) = messagesOf first ++ messagesOf second :=
  List.map_append

theorem messagesOf_map (exchange : Str → Exchange) (ordered : List Str) :
    messagesOf (ordered.map exchange) = ordered.map fun xpath => (exchange xpath).message :=
  List.map_map

theorem compensationsOf_append (first second : List Exchange) :
    compensationsOf (first ++ second) = compensationsOf second ++ compensationsOf first := by
  unfold compensationsOf
  rw [List.reverse_append, List.map_append]

theorem compensationsOf_map (exchange : Str → Exchange) (ordered : List Str) :
    compensationsOf (ordered.map exchange) =
      ordered.reverse.map fun xpath => (exchange xpath).compensation := by
  unfold compensationsOf
  rw [← List.map_reverse]
  exact List.map_map

/-- The exchange for a node that is removed. -/
def deletionOf (env : Env) (manager : Manager) (xpath : Str) : Exchange where
  message := deleteAction env manager.configFile xpath
  compensation := restoreAction env manager.runningConfig manager.runningJson xpath

/-- The exchange for a node that is updated. -/
def updateOf (env : Env) (manager : Manager) (json_config : Json) (edited : Node) (xpath : Str) :
    Exchange where
  message := updateAction env manager.runningJson json_config xpath
  compensation := revokeAction env edited xpath

/-- The exchange where no compensation is posted. -/
def Exchange.uncompensated (exchange : Exchange) : Exchange :=
  { exchange with compensation := .ok none }

theorem messagesOf_uncompensated (exchanges : List Exchange) :
    messagesOf (exchanges.map Exchange.uncompensated) = messagesOf exchanges :=
  List.map_map

theorem compensationsOf_uncompensated {exchanges : List Exchange} :
    ∀ message ∈ compensationsOf (exchanges.map Exchange.uncompensated), message = .ok none := by
  intro message member
  obtain ⟨exchange, listed, rfl⟩ := List.mem_map.mp member
  obtain ⟨_, _, rfl⟩ := List.mem_map.mp (List.mem_reverse.mp listed)
  rfl

end Exchange

section Setback

variable {env : Env} {patch : Json} {manager after : Manager}

/-- The edit of the tree is refused, or the plan of the update is. -/
def EditRefused (env : Env) (items : List DiffItem) (removal : Removal) (node_config : Node)
    (index : References) : Prop :=
  (∃ edited, editNodes env items removal node_config = .error .rejected edited) ∨
    ∃ json_config edited, editNodes env items removal node_config = .ok json_config edited ∧
      planUpdate env items edited index = .error .rejected

/-- Where a call that makes a candidate is refused once it has begun to post, with the exchanges
for the messages acknowledged until then. -/
inductive Setback (env : Env) (patch : Json) (manager : Manager) : List Exchange → Prop where
  | deletion {root : Node} {items : List DiffItem} {removal : Removal} {index : References}
      {done : List Str} {log : Log} (admitted : Manager.Admitted env manager patch root)
      (begun : Begun env patch manager.runningJson (manager.runningDraft root) items removal index)
      (unanswered : Unanswered env (deleteAction env manager.configFile) removal.ordered
        manager.posts done log) :
      Setback env patch manager (done.map (deletionOf env manager))
  | edit {root : Node} {items : List DiffItem} {removal : Removal} {index : References}
      {log : Log} (admitted : Manager.Admitted env manager patch root)
      (begun : Begun env patch manager.runningJson (manager.runningDraft root) items removal index)
      (deleted : postDeletions env manager.site [] removal.ordered manager.posts = .ok ⟨⟩ log)
      (refused : EditRefused env items removal root index) :
      Setback env patch manager (removal.ordered.map (deletionOf env manager))
  | update {root : Node} {items : List DiffItem} {removal : Removal} {index : References}
      {log last : Log} {json_config : Json} {edited : Node} {ordered done : List Str}
      {saved : References} (admitted : Manager.Admitted env manager patch root)
      (begun : Begun env patch manager.runningJson (manager.runningDraft root) items removal index)
      (deleted : postDeletions env manager.site [] removal.ordered manager.posts = .ok ⟨⟩ log)
      (prepared : Prepared env items removal ⟨root, index, log⟩ json_config edited ordered saved)
      (unanswered : Unanswered env (updateAction env manager.runningJson json_config) ordered log
        done last) :
      Setback env patch manager (removal.ordered.map (deletionOf env manager) ++
        done.map (updateOf env manager json_config edited))
  | reload {root : Node} (admitted : Manager.Admitted env manager patch root)
      (course : Course env manager.site patch manager.runningJson (manager.runningDraft root))
      (refused : fReloadNodeConfig env course.json_config course.saved = .error .rejected) :
      Setback env patch manager ((course.removal.ordered.map (deletionOf env manager) ++
        course.ordered.map (updateOf env manager course.json_config course.edited)).map
          Exchange.uncompensated)

/-- The call comes to its first message. -/
def Begins (env : Env) (patch : Json) (manager : Manager) : Prop :=
  ∃ root items removal index, Manager.Admitted env manager patch root ∧
    Begun env patch manager.runningJson (manager.runningDraft root) items removal index

/-- A refusal halts. -/
theorem refusal_halts (undo : Posting PUnit) (log : Log) :
    ∃ reason after, (undo >>= fun _ => throw .rejected : Posting PUnit) log =
      .error reason after := by
  cases ran : undo log with
  | ok _ rest =>
      rw [bind_of_ok ran]
      exact ⟨.rejected, rest, rfl⟩
  | error reason rest =>
      rw [bind_of_error ran]
      exact ⟨reason, rest, rfl⟩

/-- A call whose routine halts leaves its messages. -/
theorem make_of_routine_error {root : Node} {reason : Halt} {draft : Draft}
    (admitted : Manager.Admitted env manager patch root)
    (ran : fMakeCandidateConfigInternal env manager.site patch manager.runningJson
      (manager.runningDraft root) = .error reason draft) :
    Manager.makeCandidateConfig env patch manager = .error reason (manager.keep draft) := by
  rw [Manager.make_of_admitted admitted, ran]

/-- A routine whose deletions halt. -/
theorem routine_of_deletions_error {site : Site} {jconfig : Json} {before : Draft}
    {items : List DiffItem} {removal : Removal} {index : References} {reason : Halt} {log : Log}
    (begun : Begun env patch jconfig before items removal index)
    (halted : postDeletions env site [] removal.ordered before.posts = .error reason log) :
    fMakeCandidateConfigInternal env site patch jconfig before =
      .error reason ⟨before.nodeConfig, index, log⟩ := by
  rw [routine_of_begun begun, onPosts]
  exact bind_of_error (focus_eq_error.mpr ⟨log, halted, rfl⟩)

/-- A routine whose update halts. -/
theorem routine_of_update_error {site : Site} {jconfig : Json} {before between : Draft}
    {items : List DiffItem} {removal : Removal} {index : References} {reason : Halt} {log : Log}
    (begun : Begun env patch jconfig before items removal index)
    (deleted : postDeletions env site [] removal.ordered before.posts = .ok ⟨⟩ log)
    (halted : performUpdate env jconfig items removal ⟨before.nodeConfig, index, log⟩ =
      .error reason between) :
    fMakeCandidateConfigInternal env site patch jconfig before =
      if reason = .rejected then
        (onPosts (rollback_removed_nodes env site removal.ordered.reverse) >>= fun _ =>
          throw .rejected) between
      else .error reason between := by
  have posted : onPosts (postDeletions env site [] removal.ordered)
      { before with references := index } = .ok ⟨⟩ ⟨before.nodeConfig, index, log⟩ :=
    focus_eq_ok.mpr ⟨log, deleted, rfl⟩
  rw [routine_of_begun begun, bind_of_ok posted]
  by_cases rejected : reason = .rejected
  · rw [if_pos rejected]
    unfold compensated
    rw [halted, rejected]
    rfl
  · rw [if_neg rejected]
    exact compensated_of_uncaught halted (decide_eq_false rejected)

/-- A refusal posts as it does on its own. -/
theorem onPosts_refusal {undo : Posting PUnit} {between : Draft} {reason : Halt} {rest : Log}
    (refused : (undo >>= fun _ => throw .rejected : Posting PUnit) between.posts =
      .error reason rest) :
    (onPosts undo >>= fun _ => throw .rejected : EStateM Halt Draft Json) between =
      .error reason { between with posts := rest } := by
  rcases bind_eq_error.mp refused with halted | ⟨_, log, undone, thrown⟩
  · exact bind_of_error (focus_eq_error.mpr ⟨rest, halted, rfl⟩)
  · cases thrown
    exact (bind_of_ok (focus_eq_ok.mpr ⟨rest, undone, rfl⟩)).trans rfl

/-- A call whose update is refused restores the deletions. -/
theorem make_of_update_refused {root : Node} {items : List DiffItem} {removal : Removal}
    {index : References} {log rest : Log} {between : Draft} {reason : Halt}
    (admitted : Manager.Admitted env manager patch root)
    (begun : Begun env patch manager.runningJson (manager.runningDraft root) items removal index)
    (deleted : postDeletions env manager.site [] removal.ordered manager.posts = .ok ⟨⟩ log)
    (halted : performUpdate env manager.runningJson items removal ⟨root, index, log⟩ =
      .error .rejected between)
    (restores : (postMessages env (removal.ordered.reverse.map
        (restoreAction env manager.runningConfig manager.runningJson)) >>= fun _ =>
          throw .rejected : Posting PUnit) between.posts = .error reason rest) :
    ∃ after, Manager.makeCandidateConfig env patch manager = .error reason after ∧
      after.posts = rest := by
  have ran := routine_of_update_error begun deleted halted
  have same : rollback_removed_nodes env manager.site removal.ordered.reverse =
      postMessages env (removal.ordered.reverse.map
        (restoreAction env manager.runningConfig manager.runningJson)) :=
    rollback_removed_nodes_eq manager.site removal.ordered.reverse
  rw [if_pos rfl, same] at ran
  exact ⟨_, make_of_routine_error admitted (ran.trans (onPosts_refusal restores)), rfl⟩

/-- A call with an update that is not answered revokes the updates and restores the deletions. -/
theorem make_of_unanswered {root : Node} {items : List DiffItem} {removal : Removal}
    {index saved : References} {log last rest : Log} {json_config : Json} {edited : Node}
    {ordered done : List Str} {reason : Halt} (admitted : Manager.Admitted env manager patch root)
    (begun : Begun env patch manager.runningJson (manager.runningDraft root) items removal index)
    (deleted : postDeletions env manager.site [] removal.ordered manager.posts = .ok ⟨⟩ log)
    (prepared : Prepared env items removal ⟨root, index, log⟩ json_config edited ordered saved)
    (unanswered : Unanswered env (updateAction env manager.runningJson json_config) ordered log
      done last)
    (compensates : (postMessages env (done.reverse.map (revokeAction env edited) ++
        removal.ordered.reverse.map (restoreAction env manager.runningConfig manager.runningJson)) >>=
          fun _ => throw .rejected : Posting PUnit) last = .error reason rest) :
    ∃ after, Manager.makeCandidateConfig env patch manager = .error reason after ∧
      after.posts = rest := by
  have revokes : postUpdates env edited manager.runningJson json_config [] ordered log =
      (postMessages env (done.reverse.map (revokeAction env edited)) >>= fun _ =>
        throw .rejected) last := by
    rw [postUpdates_eq, unanswered.postEach, List.append_nil, rollback_added_nodes_eq]
  unfold postMessages at compensates
  rw [forEach_append, bind_assoc] at compensates
  rcases bind_eq_error.mp compensates with halted | ⟨_, between, revoked, restores⟩
  · -- a compensation that halts goes out as it is, with the deletions not restored
    have other : reason ≠ .rejected := by
      apply postMessages_avoids _ halted
      intro message member
      obtain ⟨xpath, _, rfl⟩ := List.mem_map.mp member
      exact revokeAction_avoids env edited xpath
    have stopped : performUpdate env manager.runningJson items removal ⟨root, index, log⟩ =
        .error reason ⟨edited, saved, rest⟩ := by
      apply performUpdate_eq_error.mpr
      refine Or.inr (Or.inr ⟨json_config, edited, ordered, saved, rest, prepared, ?_, rfl⟩)
      rw [revokes]
      exact bind_of_error halted
    have ran := routine_of_update_error begun deleted stopped
    rw [if_neg other] at ran
    exact ⟨_, make_of_routine_error admitted ran, rfl⟩
  · have halted : performUpdate env manager.runningJson items removal ⟨root, index, log⟩ =
        .error .rejected ⟨edited, saved, between⟩ := by
      apply performUpdate_eq_error.mpr
      refine Or.inr (Or.inr ⟨json_config, edited, ordered, saved, between, prepared, ?_, rfl⟩)
      rw [revokes]
      exact (bind_of_ok revoked).trans rfl
    exact make_of_update_refused admitted begun deleted halted restores

/-- The acknowledged messages of a setback are in the backend, and the call ends as the posting
of its compensations does. -/
theorem Setback.outcome {exchanges : List Exchange} (setback : Setback env patch manager exchanges) :
    ∃ log, backendOf log =
        applyAll (changesIn (messagesOf exchanges)) (backendOf manager.posts) ∧
      ∀ reason rest, (postMessages env (compensationsOf exchanges) >>= fun _ => throw .rejected :
          Posting PUnit) log = .error reason rest →
        ∃ after, Manager.makeCandidateConfig env patch manager = .error reason after ∧
          after.posts = rest := by
  cases setback with
  | @deletion root items removal index done log admitted begun unanswered =>
      rw [messagesOf_map, compensationsOf_map]
      refine ⟨log, unanswered.backend, fun reason rest restores => ?_⟩
      have halted : postDeletions env manager.site [] removal.ordered manager.posts =
          .error reason rest := by
        rw [postDeletions_eq]
        refine unanswered.postEach.trans ?_
        rw [List.append_nil, rollback_removed_nodes_eq]
        exact restores
      exact ⟨_, make_of_routine_error admitted (routine_of_deletions_error begun halted), rfl⟩
  | @edit root items removal index log admitted begun deleted refused =>
      rw [messagesOf_map, compensationsOf_map]
      refine ⟨log, ?_, fun reason rest restores => ?_⟩
      · rw [(sent_of_postDeletions deleted).backend]
        exact congrArg (applyAll · (backendOf manager.posts)) (changesIn_map _ _).symm
      · rcases refused with ⟨edited, edits⟩ | ⟨json_config, edited, edits, planned⟩
        · have halted : performUpdate env manager.runningJson items removal ⟨root, index, log⟩ =
              .error .rejected ⟨edited, index, log⟩ :=
            performUpdate_eq_error.mpr (Or.inl ⟨edited, edits, rfl⟩)
          exact make_of_update_refused admitted begun deleted halted restores
        · have halted : performUpdate env manager.runningJson items removal ⟨root, index, log⟩ =
              .error .rejected ⟨edited, index, log⟩ :=
            performUpdate_eq_error.mpr (Or.inr (Or.inl ⟨json_config, edited, edits, planned, rfl⟩))
          exact make_of_update_refused admitted begun deleted halted restores
  | @update root items removal index log last json_config edited ordered done saved admitted begun
      deleted prepared unanswered =>
      rw [messagesOf_append, messagesOf_map, messagesOf_map, compensationsOf_append,
        compensationsOf_map, compensationsOf_map]
      refine ⟨last, ?_, fun reason rest compensates => ?_⟩
      · rw [unanswered.backend, (sent_of_postDeletions deleted).backend, changesIn_append,
          applyAll_append, ← changesIn_map]
        rfl
      · exact make_of_unanswered admitted begun deleted prepared unanswered compensates
  | @reload root admitted course refused =>
      rw [messagesOf_uncompensated, messagesOf_append, messagesOf_map, messagesOf_map]
      refine ⟨course.posts, ?_, fun reason rest compensates => ?_⟩
      · rw [(sent_of_postUpdates course.updated).backend,
          (sent_of_postDeletions course.deleted).backend, changesIn_append, applyAll_append,
          ← changesIn_map, ← changesIn_map]
        rfl
      · rw [bind_of_ok (postMessages_silent compensationsOf_uncompensated course.posts)]
          at compensates
        cases compensates
        refine ⟨manager.keep course.draft, ?_, rfl⟩
        rw [Manager.make_of_admitted admitted, Course.routine_eq_ok_iff.mpr ⟨course, rfl, rfl⟩]
        dsimp only
        have same : fReloadNodeConfig env course.json_config course.draft.references =
            .error .rejected := refused
        rw [same]

/-- The encoding of a compensation is not refused. -/
theorem Setback.avoids {exchanges : List Exchange} (setback : Setback env patch manager exchanges)
    {message : Attempt (Option Post)} (member : message ∈ compensationsOf exchanges) :
    Avoids Halt.rejected message := by
  have restored {removed : List Str}
      (member : message ∈ compensationsOf (removed.map (deletionOf env manager))) :
      Avoids Halt.rejected message := by
    rw [compensationsOf_map] at member
    obtain ⟨xpath, _, rfl⟩ := List.mem_map.mp member
    exact restoreAction_avoids env _ _ xpath
  cases setback with
  | deletion | edit => exact restored member
  | @update _ _ _ _ _ _ _ edited =>
      rw [compensationsOf_append, compensationsOf_map] at member
      rcases List.mem_append.mp member with revoked | member
      · obtain ⟨xpath, _, rfl⟩ := List.mem_map.mp revoked
        exact revokeAction_avoids env edited xpath
      · exact restored member
  | reload =>
      rw [compensationsOf_uncompensated message member]
      exact avoids_ok _ _

/-- A call that is refused after it has begun to post has met with a setback. -/
theorem setback_of_refused (begins : Begins env patch manager)
    (refused : Manager.makeCandidateConfig env patch manager = .error .rejected after) :
    ∃ exchanges, Setback env patch manager exchanges := by
  obtain ⟨root, items, removal, index, admitted, begun⟩ := begins
  rw [Manager.make_of_admitted admitted] at refused
  split at refused
  · next reason draft ran =>
      cases refused
      rcases routine_eq_error begun ran with ⟨log, halted, _⟩ |
        ⟨log, cause, between, deleted, halted, ending⟩
      · rw [postDeletions_eq] at halted
        rcases postEach_cases [] removal.ordered manager.posts with ⟨_, posted⟩ |
          ⟨xpath, why, _, unencoded, stopped⟩ | ⟨done, last, unanswered, _⟩
        · cases posted.symm.trans halted
        · cases stopped.symm.trans halted
          exact absurd unencoded (deleteAction_avoids env _ xpath)
        · exact ⟨_, Setback.deletion admitted begun unanswered⟩
      · have rejected : cause = .rejected := by
          rcases ending with ⟨_, same, _⟩ | ⟨rejected, _⟩
          · exact same.symm
          · exact rejected
        subst rejected
        rcases performUpdate_eq_error.mp halted with ⟨edited, edits, _⟩ |
          ⟨json_config, edited, edits, planned, _⟩ |
          ⟨json_config, edited, ordered, saved, rest, prepared, halted, _⟩
        · exact ⟨_, Setback.edit admitted begun deleted (Or.inl ⟨edited, edits⟩)⟩
        · exact ⟨_, Setback.edit admitted begun deleted
            (Or.inr ⟨json_config, edited, edits, planned⟩)⟩
        · rw [postUpdates_eq] at halted
          rcases postEach_cases [] ordered log with ⟨_, posted⟩ |
            ⟨xpath, why, _, unencoded, stopped⟩ | ⟨done, last, unanswered, _⟩
          · cases posted.symm.trans halted
          · cases stopped.symm.trans halted
            exact absurd unencoded (updateAction_avoids env _ _ xpath)
          · exact ⟨_, Setback.update admitted begun deleted prepared unanswered⟩
  · next json_config draft ran =>
      obtain ⟨course, rfl, rfl⟩ := Course.routine_eq_ok_iff.mp ran
      split at refused
      · next reason reload =>
          cases refused
          exact ⟨_, Setback.reload admitted course reload⟩
      · cases refused

/-- A call that has posted has come to its first message. -/
theorem begins_of_posts {reason : Halt}
    (halted : Manager.makeCandidateConfig env patch manager = .error reason after)
    (posted : after.posts ≠ manager.posts) : Begins env patch manager := by
  by_cases admitted : ∃ root, Manager.Admitted env manager patch root
  · obtain ⟨root, admitted⟩ := admitted
    rcases begun_or_unwritten env manager.site patch manager.runningJson
      (manager.runningDraft root) with ⟨why, unwritten⟩ | ⟨items, removal, index, begun⟩
    · rw [make_of_routine_error admitted unwritten] at halted
      cases halted
      exact absurd rfl posted
    · exact ⟨root, items, removal, index, admitted, begun⟩
  · obtain ⟨why, unchanged⟩ := Manager.make_of_not_admitted admitted
    rw [unchanged] at halted
    cases halted
    exact absurd rfl posted

/-- What a setback ends in, where no compensation goes unanswered. -/
theorem Setback.ending {exchanges : List Exchange} (setback : Setback env patch manager exchanges) {reason : Halt}
    (halted : Manager.makeCandidateConfig env patch manager = .error reason after)
    (answered : reason ≠ .exited) :
    (reason ≠ .rejected ∧ .error reason ∈ compensationsOf exchanges) ∨
      (reason = .rejected ∧ (∀ message ∈ compensationsOf exchanges, ∃ post, message = .ok post) ∧
        backendOf after.posts =
          applyAll (changesIn (messagesOf exchanges ++ compensationsOf exchanges)) (backendOf manager.posts)) := by
  obtain ⟨log, backend, ends⟩ := setback.outcome
  obtain ⟨why, rest, compensates⟩ := refusal_halts (postMessages env (compensationsOf exchanges)) log
  obtain ⟨last, made, rfl⟩ := ends why rest compensates
  cases halted.symm.trans made
  rcases refusal_cases (fun _ member => setback.avoids member) compensates with
    exits | ⟨other, unencoded⟩ | ⟨rejected, encodes, same⟩
  · exact absurd exits answered
  · exact Or.inl ⟨other, unencoded⟩
  · refine Or.inr ⟨rejected, encodes, ?_⟩
    rw [same, backend, changesIn_append, applyAll_append]

/-- A call that halts after it has begun to post, and in which no compensation goes unanswered,
is refused with the backend as it was exactly when it has met with a setback all of whose
compensations can be encoded and, with the messages, leave the backend as it was. -/
theorem refused_restored_iff {reason : Halt} (begins : Begins env patch manager)
    (halted : Manager.makeCandidateConfig env patch manager = .error reason after)
    (answered : reason ≠ .exited) :
    (reason = .rejected ∧ backendOf after.posts = backendOf manager.posts) ↔
      ∃ exchanges, Setback env patch manager exchanges ∧
        (∀ message ∈ compensationsOf exchanges, ∃ post, message = .ok post) ∧
        applyAll (changesIn (messagesOf exchanges ++ compensationsOf exchanges))
          (backendOf manager.posts) = backendOf manager.posts := by
  constructor
  · rintro ⟨rfl, same⟩
    obtain ⟨exchanges, setback⟩ := setback_of_refused begins halted
    rcases setback.ending halted answered with ⟨other, _⟩ | ⟨_, encodes, backend⟩
    · exact absurd rfl other
    · exact ⟨exchanges, setback, encodes, backend.symm.trans same⟩
  · rintro ⟨exchanges, setback, encodes, kept⟩
    rcases setback.ending halted answered with ⟨_, unencoded⟩ | ⟨rejected, _, backend⟩
    · obtain ⟨_, impossible⟩ := encodes _ unencoded
      cases impossible
    · exact ⟨rejected, backend.trans kept⟩

end Setback

end FlexConfig
