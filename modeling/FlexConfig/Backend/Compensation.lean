import FlexConfig.Backend.Setback
import FlexConfig.Backend.TakenBack
import FlexConfig.Manager.ReferenceIndex

/-! # The compensation of a refused call

Where the backend holds the running configuration, a call that is refused after it has begun to
post leaves it as it was exactly when the nodes whose messages were acknowledged can be taken
back: a removed one is a leaf that is an item of its own, an updated one can have its path
cleared and was not there before. What stops the call, and which messages are acknowledged until
then, is told by the patch, the documents, the schema and the answers.
-/

namespace FlexConfig

open Procedure ItemStore

section Stops

variable {env : Env} {encode : Str → Attempt (Option Post)} {undo : List Str → Posting PUnit}

/-- The messages for nodes in turn stop at one that is not answered, after those for `done`. -/
def StopsAfter (env : Env) (encode : Str → Attempt (Option Post)) (ordered : List Str) (sent : Nat)
    (done : List Str) : Prop :=
  ∃ xpath rest message, ordered = done ++ xpath :: rest ∧ Replied env encode done sent ∧
    encode xpath = .ok (some message) ∧ env.answers (sent + messageCount encode done) = false

theorem postEach_eq_ok_iff_postMessages {done ordered : List Str} {before after : Log} :
    postEach env encode undo done ordered before = .ok ⟨⟩ after ↔
      postMessages env (ordered.map encode) before = .ok ⟨⟩ after := by
  induction ordered generalizing done before with
  | nil => exact Iff.rfl
  | cons xpath rest ih =>
      rw [postEach_cons, List.map_cons, postMessages_cons]
      cases encode xpath with
      | error reason => exact iff_of_false nofun nofun
      | ok message =>
          cases message with
          | none => exact ih
          | some message =>
              dsimp only
              split
              · exact ih
              · refine iff_of_false (fun posted => ?_) nofun
                obtain ⟨_, _, _, impossible⟩ := bind_eq_ok.mp posted
                cases impossible

/-- The posting for nodes stops at an unanswered message where the answers say so. -/
theorem unanswered_iff {ordered done : List Str} {before : Log} :
    (∃ after, Unanswered env encode ordered before done after) ↔
      StopsAfter env encode ordered before.length done := by
  have posts {log : Log} : postEach env encode (fun _ => pure ⟨⟩) [] done before = .ok ⟨⟩ log ↔
      postMessages env (done.map encode) before = .ok ⟨⟩ log := postEach_eq_ok_iff_postMessages
  constructor
  · rintro ⟨_, xpath, rest, message, log, same, posted, encodes, fails, _⟩
    have sent := posts.mpr posted
    refine ⟨xpath, rest, message, same, exists_postEach_eq_ok_iff.mp ⟨log, sent⟩, encodes, ?_⟩
    rw [← length_of_postEach sent]
    exact fails
  · rintro ⟨xpath, rest, message, same, replied, encodes, fails⟩
    obtain ⟨log, sent⟩ : ∃ log, postEach env encode (fun _ => pure ⟨⟩) [] done before =
        .ok ⟨⟩ log := exists_postEach_eq_ok_iff.mpr replied
    refine ⟨_, xpath, rest, message, log, same, posts.mp sent, encodes, ?_, rfl⟩
    rw [length_of_postEach sent]
    exact fails

/-- The nodes a patch removes, in the order of their deletion. -/
def removalOrder (env : Env) (items : List DiffItem) (source : Node) : Attempt (List Str) :=
  orderRemovals env items (pathNodesOfPatch items) (removalTree items source)

theorem removalOrder_of_planned {patch jconfig : Json} {source : Node} {items : List DiffItem}
    {removal : Removal} (planned : planRemoval env patch jconfig source = .ok removal)
    (parsed : patch.patchItems = .ok items) :
    removalOrder env items source = .ok removal.ordered := by
  obtain ⟨ordered, resolved, listed⟩ := planRemoval_ordered planned parsed
  rw [listed]
  exact except_bind_eq_ok.mpr ⟨ordered, resolved, rfl⟩

/-- Whether references can be evaluated does not depend on the index. -/
theorem saveXPathReference_error (ordered : List Str) (root_config : Node) {reason : Halt}
    (index other : References) :
    saveXPathReference env ordered root_config index = .error reason →
      saveXPathReference env ordered root_config other = .error reason := by
  unfold saveXPathReference
  induction ordered generalizing index other with
  | nil => exact nofun
  | cons xpath rest ih =>
      rw [List.foldlM_cons, List.foldlM_cons]
      cases referenceTargets env root_config xpath with
      | error cause => exact id
      | ok targets => exact ih _ _

theorem planUpdate_error {items : List DiffItem} {target : Node} {reason : Halt}
    (index other : References) (refused : planUpdate env items target index = .error reason) :
    planUpdate env items target other = .error reason := by
  unfold planUpdate at refused ⊢
  rcases except_bind_eq_error.mp refused with unordered | ⟨ordered, listing, refused⟩
  · exact except_bind_eq_error.mpr (.inl unordered)
  rcases except_bind_eq_error.mp refused with unchecked | ⟨_, checked, refused⟩
  · exact except_bind_eq_error.mpr (.inr ⟨ordered, listing, except_bind_eq_error.mpr (.inl unchecked)⟩)
  rcases except_bind_eq_error.mp refused with unsaved | ⟨_, _, impossible⟩
  · have fails := saveXPathReference_error ordered target index other unsaved
    exact except_bind_eq_error.mpr (.inr ⟨ordered, listing,
      except_bind_eq_error.mpr (.inr ⟨_, checked, except_bind_eq_error.mpr (.inl fails)⟩)⟩)
  · cases impossible

end Stops

section Compensation

variable {env : Env} {manager after : Manager} {patch document : Json} {root target : Node}
  {items : List DiffItem} {removal : Removal} {index : References}

/-- The backend holds the running configuration, whose document has a value for each node. -/
structure Manager.Backed (env : Env) (manager : Manager) (root : Node) : Prop where
  running : manager.runningConfig = some root
  mirrors : backendOf manager.posts = holdings env root manager.runningJson
  valued : ∀ xpath ∈ xpathsOf root, ∃ value, manager.runningJson.atText xpath = .ok value

/-- Where a call stops whose patch leads to a tree, with what must be so of the nodes it has posted
for. An unanswered deletion restores those before it, a refused update all removed nodes, and an
unanswered update revokes those before it as well. Nothing is taken back where the reload is
refused. -/
inductive Compensates (env : Env) (manager : Manager) (items : List DiffItem) (root target : Node)
    (document : Json) : Prop where
  | deletion {ordered done : List Str} (order : removalOrder env items root = .ok ordered)
      (stops : StopsAfter env (deleteAction env manager.configFile) ordered manager.posts.length done)
      (restorable : ∀ xpath ∈ done, Restorable env root manager.runningJson xpath)
  | plan (deleted : Replied env (deleteAction env manager.configFile) (removedNodes env items root)
        manager.posts.length)
      (refused : planUpdate env items target [] = .error .rejected)
      (restorable : ∀ xpath ∈ removedNodes env items root, Restorable env root manager.runningJson xpath)
  | update {ordered done : List Str}
      (deleted : Replied env (deleteAction env manager.configFile) (removedNodes env items root)
        manager.posts.length)
      (passes : UpdatesPass env items target) (order : orderUpdates env items target = .ok ordered)
      (stops : StopsAfter env (updateAction env manager.runningJson document) ordered
        (manager.posts.length + messageCount (deleteAction env manager.configFile)
          (removedNodes env items root)) done)
      (restorable : ∀ xpath ∈ removedNodes env items root, Restorable env root manager.runningJson xpath)
      (revocable : ∀ xpath ∈ done, Revocable env ⟨root, manager.runningJson⟩ ⟨target, document⟩
        (removedNodes env items root) xpath)
  | reload
      (deleted : Replied env (deleteAction env manager.configFile) (removedNodes env items root)
        manager.posts.length)
      (completes : UpdateCompletes env manager.site manager.runningJson items (manager.runningDraft root)
        document target)
      (refused : fReloadNodeConfig env document [] = .error .rejected)
      (same : ∀ xpath ∈ updatedNodes env items target, (addressOf env xpath).isSome →
        xpath ∈ xpathsOf root ∧ itemOf env document xpath = itemOf env manager.runningJson xpath)
      (again : ∀ xpath ∈ removedNodes env items root,
        TakesItem env manager.configFile manager.runningJson xpath → xpath ∈ updatedNodes env items target)

theorem reload_error {jconfig : Json} {reason : Halt} (index other : References)
    (refused : fReloadNodeConfig env jconfig index = .error reason) :
    fReloadNodeConfig env jconfig other = .error reason := by
  unfold fReloadNodeConfig at refused ⊢
  rcases except_bind_eq_error.mp refused with unloaded | ⟨jschema, loaded, refused⟩
  · exact except_bind_eq_error.mpr (.inl unloaded)
  refine except_bind_eq_error.mpr (.inr ⟨jschema, loaded, ?_⟩)
  split at refused
  · next valid =>
      rw [if_pos valid]
      rcases except_bind_eq_error.mp refused with unbuilt | ⟨root, built, refused⟩
      · exact except_bind_eq_error.mpr (.inl unbuilt)
      rcases except_bind_eq_error.mp refused with unordered | ⟨ordered, orders, refused⟩
      · exact except_bind_eq_error.mpr (.inr ⟨root, built, except_bind_eq_error.mpr (.inl unordered)⟩)
      rcases except_bind_eq_error.mp refused with unsaved | ⟨_, _, impossible⟩
      · have fails := saveXPathReference_error ordered root index other unsaved
        exact except_bind_eq_error.mpr (.inr ⟨root, built, except_bind_eq_error.mpr
          (.inr ⟨ordered, orders, except_bind_eq_error.mpr (.inl fails)⟩)⟩)
      · cases impossible
  · next invalid =>
      rw [if_neg invalid]
      exact refused

theorem Revocable.of_mem {source other : Configuration} {removed listed : List Str} {xpath : Str}
    (revocable : Revocable env source other removed xpath)
    (same : ∀ xpath, xpath ∈ removed ↔ xpath ∈ listed) : Revocable env source other listed xpath := by
  refine ⟨revocable.1, fun address addressed => ?_⟩
  have fits := revocable.2 address addressed
  rw [same] at fits
  exact fits

theorem changesIn_deletions (target : Node) (document : Json)
    (running : manager.runningConfig = some root) {done : List Str} :
    changesIn (messagesOf (done.map (deletionOf env manager)) ++
        compensationsOf (done.map (deletionOf env manager))) =
      changesTakenBack env manager.configFile ⟨root, manager.runningJson⟩ ⟨target, document⟩ done [] := by
  rw [messagesOf_map, compensationsOf_map, changesIn_append]
  unfold deletionOf changesTakenBack
  rw [changesIn_map, changesIn_map, running]
  simp [changesAt]

theorem changesIn_updates (running : manager.runningConfig = some root) {removed done : List Str} :
    changesIn (messagesOf (removed.map (deletionOf env manager) ++
          done.map (updateOf env manager document target)) ++
        compensationsOf (removed.map (deletionOf env manager) ++
          done.map (updateOf env manager document target))) =
      changesTakenBack env manager.configFile ⟨root, manager.runningJson⟩ ⟨target, document⟩ removed
        done := by
  rw [messagesOf_append, compensationsOf_append, messagesOf_map, messagesOf_map, compensationsOf_map,
    compensationsOf_map, changesIn_append, changesIn_append, changesIn_append]
  unfold deletionOf updateOf changesTakenBack
  rw [changesIn_map, changesIn_map, changesIn_map, changesIn_map, running]

theorem changesIn_reload {removed updated : List Str} :
    changesIn (messagesOf ((removed.map (deletionOf env manager) ++
          updated.map (updateOf env manager document target)).map Exchange.uncompensated) ++
        compensationsOf ((removed.map (deletionOf env manager) ++
          updated.map (updateOf env manager document target)).map Exchange.uncompensated)) =
      changesAt (deleteAction env manager.configFile) removed ++
        changesAt (updateAction env manager.runningJson document) updated := by
  have silent {messages : List (Attempt (Option Post))}
      (none : ∀ message ∈ messages, message = .ok none) : changesIn messages = [] := by
    refine List.filterMap_eq_nil_iff.mpr fun message member => ?_
    rw [none message member]
    rfl
  rw [changesIn_append, silent compensationsOf_uncompensated, List.append_nil,
    messagesOf_uncompensated, messagesOf_append, messagesOf_map, messagesOf_map, changesIn_append]
  unfold deletionOf updateOf
  rw [changesIn_map, changesIn_map]

/-- The compensations for removed and updated nodes can be encoded where each of them can. -/
theorem compensations_iff (running : manager.runningConfig = some root) {removed done : List Str} :
    (∀ message ∈ compensationsOf (removed.map (deletionOf env manager) ++
        done.map (updateOf env manager document target)), ∃ post, message = .ok post) ↔
      (∀ xpath ∈ removed, ∃ message,
        restoreAction env (some root) manager.runningJson xpath = .ok message) ∧
      ∀ xpath ∈ done, ∃ message, revokeAction env target xpath = .ok message := by
  rw [compensationsOf_append, compensationsOf_map, compensationsOf_map, List.forall_mem_append,
    and_comm]
  unfold deletionOf updateOf
  simp only [List.mem_map, List.mem_reverse, forall_exists_index, and_imp,
    forall_apply_eq_imp_iff₂, running]

theorem restores_iff (running : manager.runningConfig = some root) {done : List Str} :
    (∀ message ∈ compensationsOf (done.map (deletionOf env manager)), ∃ post, message = .ok post) ↔
      ∀ xpath ∈ done, ∃ message, restoreAction env (some root) manager.runningJson xpath =
        .ok message := by
  rw [compensationsOf_map]
  unfold deletionOf
  simp only [List.mem_map, List.mem_reverse, forall_exists_index, and_imp,
    forall_apply_eq_imp_iff₂, running]

section Lead

variable (inOrder : root.Ordered) (admitted : Manager.Admitted env manager patch root)
  (backed : manager.Backed env root) (apart : ItemsApart env (xpathsOf root ++ xpathsOf target))
  (leads : Leads env patch manager.runningJson root items document target)
include inOrder admitted backed apart leads

/-- The nodes of a patch that leads to a tree are found in the one and the other. -/
theorem standing_of_leads {removed updated : List Str}
    (removes : ∀ xpath ∈ removed, IsRemoved env items root xpath)
    (encodes : ∀ xpath ∈ removed, ∃ message, deleteAction env manager.configFile xpath = .ok message)
    (updates : ∀ xpath ∈ updated, IsUpdated env items target xpath) :
    Standing env root target manager.runningJson removed updated := by
  refine ⟨apart, admitted.document, backed.valued, fun xpath listed => ?_, fun xpath listed => ?_⟩
  · have member := leads.reaches.taken xpath (removes xpath listed)
    obtain ⟨message, encoded⟩ := encodes xpath listed
    obtain ⟨schema_node, looked, _⟩ := except_bind_eq_ok.mp encoded
    obtain ⟨location, node, rfl, below, found, plain⟩ :=
      exists_of_mem_xpathsOf inOrder leads.reaches.sourceNames member
    exact ⟨member, ⟨_, plain.select below found⟩, schema_node,
      getSchemaByXPath_of_schemaNodeAt looked⟩
  · obtain ⟨_, ⟨visited, present, schema_node, looked, rfl⟩, _⟩ := updates xpath listed
    obtain ⟨below, found⟩ := (Node.mem_nodes_iff leads.inOrder).mp present
    have plain := leads.reaches.targetNames.of_get found
    have named : schema_node.path = visited.location := by
      rw [getSchemaByXPath_path looked, plain.parse]
    rw [named]
    refine ⟨mem_xpathsOf.mpr ⟨visited, present, rfl⟩, ?_, schema_node, looked⟩
    rw [plain.select below found]
    rfl

variable (begun : Begun env patch manager.runningJson (manager.runningDraft root) items removal index)

theorem compensates_of_setback {exchanges : List Exchange}
    (setback : Setback env patch manager exchanges)
    (encodes : ∀ message ∈ compensationsOf exchanges, ∃ post, message = .ok post)
    (kept : applyAll (changesIn (messagesOf exchanges ++ compensationsOf exchanges))
      (backendOf manager.posts) = backendOf manager.posts) :
    Compensates env manager items root target document := by
  rw [backed.mirrors] at kept
  cases setback with
  | @deletion other listed removal index done log admitted' begun unanswered =>
      cases admitted.unique admitted'
      cases leads.parsed.symm.trans begun.parsed
      have stops := unanswered_iff.mp ⟨_, unanswered⟩
      obtain ⟨xpath, rest, message, same, replied, _⟩ := id stops
      have removed (xpath : Str) (member : xpath ∈ done) : IsRemoved env items root xpath :=
        (mem_removal_iff begun.planned begun.parsed).mp (same ▸ List.mem_append_left _ member)
      have standing : Standing env root target manager.runningJson done [] :=
        standing_of_leads inOrder admitted backed apart leads removed replied.encodes nofun
      rw [changesIn_deletions target document backed.running] at kept
      exact .deletion (removalOrder_of_planned begun.planned begun.parsed) stops
        (standing.restorable ((restores_iff backed.running).mp encodes) kept)
  | @edit other listed removal index log admitted' begun deleted refused =>
      cases admitted.unique admitted'
      obtain ⟨rfl, edits⟩ := leads.prepared inOrder begun
      have replied := (deletions_iff begun).mp ⟨log, deleted⟩
      have same := removal_perm begun.planned begun.parsed
      have standing : Standing env root target manager.runningJson removal.ordered [] :=
        standing_of_leads inOrder admitted backed apart leads
          (fun xpath member => (mem_removal_iff begun.planned begun.parsed).mp member)
          (replied.perm same.symm).encodes nofun
      rw [changesIn_deletions target document backed.running] at kept
      have restorable := standing.restorable ((restores_iff backed.running).mp encodes) kept
      rcases refused with ⟨edited, halts⟩ | ⟨json_config, edited, edits', halts⟩
      · cases edits.symm.trans halts
      · cases edits.symm.trans edits'
        exact .plan replied (planUpdate_error index [] halts) fun xpath member =>
          restorable xpath (same.mem_iff.mpr member)
  | @update other listed removal index log last json_config edited ordered done saved admitted' begun
      deleted prepared unanswered =>
      cases admitted.unique admitted'
      obtain ⟨rfl, edits⟩ := leads.prepared inOrder begun
      cases edits.symm.trans prepared.edits
      have replied := (deletions_iff begun).mp ⟨log, deleted⟩
      have same := removal_perm begun.planned begun.parsed
      have stops := unanswered_iff.mp ⟨_, unanswered⟩
      have sent := deleted
      rw [postDeletions_eq] at sent
      have count : messageCount (deleteAction env manager.configFile) removal.ordered =
          messageCount (deleteAction env manager.configFile) (removedNodes env _ root) :=
        (same.filter _).length_eq
      rw [length_of_postEach sent] at stops
      change StopsAfter _ _ _ (manager.posts.length +
        messageCount (deleteAction env manager.configFile) removal.ordered) _ at stops
      rw [count] at stops
      obtain ⟨xpath, rest, message, listed, answered, _⟩ := id stops
      have standing : Standing env root target manager.runningJson removal.ordered done :=
        standing_of_leads inOrder admitted backed apart leads
          (fun xpath member => (mem_removal_iff begun.planned begun.parsed).mp member)
          (replied.perm same.symm).encodes fun xpath member =>
            (mem_ordered_iff prepared).mp (listed ▸ List.mem_append_left _ member)
      obtain ⟨restores, revokes⟩ := (compensations_iff backed.running).mp encodes
      rw [changesIn_updates backed.running] at kept
      obtain ⟨_, order, _⟩ := except_bind_eq_ok.mp prepared.planned
      obtain ⟨resolved, orders, ordered, _⟩ := prepared_ordered prepared
      refine .update replied ((exists_planUpdate_eq_ok_iff _).mp ⟨_, prepared.planned⟩)
        (except_bind_eq_ok.mpr ⟨resolved, orders, congrArg Except.ok ordered.symm⟩) stops
        (fun xpath member => standing.restorable restores kept xpath (same.mem_iff.mpr member)) ?_
      exact fun xpath member => (standing.revocable answered.encodes revokes kept xpath member).of_mem
        fun _ => same.mem_iff
  | @reload other admitted' course refused =>
      cases admitted.unique admitted'
      obtain ⟨rfl, rfl, rfl⟩ := leads.course inOrder course
      obtain ⟨begins, completes⟩ := (exists_routine_eq_ok_iff leads inOrder).mp
        ⟨_, _, Course.routine_eq_ok_iff.mpr ⟨course, rfl, rfl⟩⟩
      have same := removal_perm course.begun.planned course.begun.parsed
      have listed := update_perm course.prepared
      have standing : Standing env root course.edited manager.runningJson course.removal.ordered
          course.ordered :=
        standing_of_leads inOrder admitted backed apart leads
          (fun xpath member => (course.mem_removed_iff xpath).mp member)
          (begins.deleted.perm same.symm).encodes fun xpath member =>
            (course.mem_updated_iff xpath).mp member
      rw [changesIn_reload] at kept
      obtain ⟨unchanged, again⟩ := (standing.holdings_left_iff
        (sent_of_postUpdates course.updated).encodes).mp kept
      exact .reload begins.deleted completes (reload_error _ [] refused)
        (fun xpath member => unchanged xpath (listed.mem_iff.mpr member))
        fun xpath member takes => listed.mem_iff.mp (again xpath (same.mem_iff.mpr member) takes)

theorem setback_of_compensates
    (begun : Begun env patch manager.runningJson (manager.runningDraft root) items removal index)
    (compensates : Compensates env manager items root target document) :
    ∃ exchanges, Setback env patch manager exchanges ∧
      (∀ message ∈ compensationsOf exchanges, ∃ post, message = .ok post) ∧
      applyAll (changesIn (messagesOf exchanges ++ compensationsOf exchanges))
        (backendOf manager.posts) = backendOf manager.posts := by
  obtain ⟨_, edits⟩ := leads.prepared inOrder begun
  have same := removal_perm begun.planned begun.parsed
  have removed (xpath : Str) (member : xpath ∈ removal.ordered) : IsRemoved env items root xpath :=
    (mem_removal_iff begun.planned begun.parsed).mp member
  rw [backed.mirrors]
  cases compensates with
  | @deletion ordered done order stops restorable =>
      cases order.symm.trans (removalOrder_of_planned begun.planned begun.parsed)
      obtain ⟨log, unanswered⟩ := unanswered_iff.mpr stops
      obtain ⟨xpath, rest, message, listed, replied, _⟩ := stops
      have standing : Standing env root target manager.runningJson done [] :=
        standing_of_leads inOrder admitted backed apart leads
          (fun xpath member => removed xpath (listed ▸ List.mem_append_left _ member)) replied.encodes
          nofun
      refine ⟨_, .deletion admitted begun unanswered,
        (restores_iff backed.running).mpr (standing.exists_restoreAction restorable), ?_⟩
      rw [changesIn_deletions target document backed.running]
      exact standing.holdings_takenBack nofun restorable nofun
  | plan deleted refused restorable =>
      obtain ⟨log, posted⟩ : ∃ log, postDeletions env manager.site [] removal.ordered manager.posts =
          .ok ⟨⟩ log := (deletions_iff begun).mpr deleted
      have restorable (xpath : Str) (member : xpath ∈ removal.ordered) :=
        restorable xpath (same.mem_iff.mp member)
      have standing : Standing env root target manager.runningJson removal.ordered [] :=
        standing_of_leads inOrder admitted backed apart leads removed
          (deleted.perm same.symm).encodes nofun
      refine ⟨_, .edit admitted begun posted
        (Or.inr ⟨document, target, edits, planUpdate_error [] index refused⟩),
        (restores_iff backed.running).mpr (standing.exists_restoreAction restorable), ?_⟩
      rw [changesIn_deletions target document backed.running]
      exact standing.holdings_takenBack nofun restorable nofun
  | @update ordered done deleted passes order stops restorable revocable =>
      obtain ⟨log, posted⟩ : ∃ log, postDeletions env manager.site [] removal.ordered manager.posts =
          .ok ⟨⟩ log := (deletions_iff begun).mpr deleted
      obtain ⟨plan, planned⟩ := (exists_planUpdate_eq_ok_iff index).mpr passes
      have prepared : Prepared env items removal ⟨root, index, log⟩ document target plan.1 plan.2 :=
        ⟨edits, planned⟩
      obtain ⟨resolved, orders, listing, _⟩ := prepared_ordered prepared
      have orders : orderUpdates env items target = .ok plan.1 :=
        except_bind_eq_ok.mpr ⟨resolved, orders, congrArg Except.ok listing.symm⟩
      cases order.symm.trans orders
      have sent := posted
      rw [postDeletions_eq] at sent
      have count : messageCount (deleteAction env manager.configFile) removal.ordered =
          messageCount (deleteAction env manager.configFile) (removedNodes env items root) :=
        (same.filter _).length_eq
      have length : log.length = manager.posts.length +
          messageCount (deleteAction env manager.configFile) (removedNodes env items root) :=
        (length_of_postEach sent).trans (congrArg _ count)
      rw [← length] at stops
      obtain ⟨last, unanswered⟩ := unanswered_iff.mpr stops
      obtain ⟨xpath, rest, message, listed, answered, _⟩ := stops
      have restorable (xpath : Str) (member : xpath ∈ removal.ordered) :=
        restorable xpath (same.mem_iff.mp member)
      have revocable (xpath : Str) (member : xpath ∈ done) :=
        (revocable xpath member).of_mem fun _ => same.mem_iff.symm
      have standing : Standing env root target manager.runningJson removal.ordered done :=
        standing_of_leads inOrder admitted backed apart leads removed
          (deleted.perm same.symm).encodes fun xpath member =>
            (mem_ordered_iff prepared).mp (listed ▸ List.mem_append_left _ member)
      refine ⟨_, .update admitted begun posted prepared unanswered,
        (compensations_iff backed.running).mpr ⟨standing.exists_restoreAction restorable,
          standing.exists_revokeAction revocable⟩, ?_⟩
      rw [changesIn_updates backed.running]
      exact standing.holdings_takenBack answered.encodes restorable revocable
  | reload deleted completes refused unchanged again =>
      have begins : UpdateBegins env manager.site patch manager.runningJson items
          (manager.runningDraft root) := ⟨begun_iff.mp ⟨_, _, begun⟩, deleted⟩
      obtain ⟨json_config, draft, ran⟩ :=
        (exists_routine_eq_ok_iff leads inOrder).mpr ⟨begins, completes⟩
      obtain ⟨course, rfl, rfl⟩ := Course.routine_eq_ok_iff.mp ran
      obtain ⟨rfl, rfl, rfl⟩ := leads.course inOrder course
      cases begun.planned.symm.trans course.begun.planned
      have listed := update_perm course.prepared
      have standing : Standing env root course.edited manager.runningJson course.removal.ordered
          course.ordered :=
        standing_of_leads inOrder admitted backed apart leads removed
          (deleted.perm same.symm).encodes fun xpath member => (course.mem_updated_iff xpath).mp member
      refine ⟨_, .reload admitted course (reload_error [] _ refused), fun message member => ?_, ?_⟩
      · exact ⟨_, compensationsOf_uncompensated message member⟩
      · rw [changesIn_reload]
        exact (standing.holdings_left_iff (sent_of_postUpdates course.updated).encodes).mpr
          ⟨fun xpath member => unchanged xpath (listed.mem_iff.mp member), fun xpath member takes =>
            listed.mem_iff.mpr (again xpath (same.mem_iff.mp member) takes)⟩

end Lead

end Compensation

end FlexConfig

namespace FlexConfig.Sample

open Procedure

/-- Settings that are items of their own, and ports that are members of a container. -/
def settingsAndPorts : Env :=
  let port := object [("action", object [("on-delete-path", text "/delete"),
    ("on-update-path", text "/update"), ("server-address", text "backend")]),
    ("properties", object [("mac", object [("type", text "string")])]), ("type", text "object")]
  deployment (object [("properties", object [
    ("port", object [("patternProperties", object [("p1", port), ("p2", port)]),
      ("type", text "object")]),
    ("set", object [("properties", object [("a", posted), ("b", posted), ("c", posted)])])])])
    fun _ => true

def settingsAndPortsConfig : Json :=
  object [("port", object [("p1", object [("mac", text "x")])]), ("set", object [("a", text "1")])]

/-- Settings whose backend does not answer one message. -/
def unansweredSetting (index : Nat) : Env :=
  { settingsAndPorts with answers := fun n => n ≠ index }

/-- Two settings are added. -/
def addSettings : Json := .array [operation "add" "/set/b" (some (text "3")),
  operation "add" "/set/c" (some (text "4"))]

def oneSetting : Json := object [("set", object [("b", text "1")])]

/-- The setting is changed and another one is added. -/
def changeSetting : Json := .array [operation "replace" "/set/b" (some (text "2")),
  operation "add" "/set/a" (some (text "3"))]

end FlexConfig.Sample
