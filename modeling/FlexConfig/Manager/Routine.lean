import FlexConfig.Manager.Manager

/-! # The course of the candidate routine

What it means that the routine returns, and in which states it can halt, read off
its phases: a plan, which writes nothing; the deletions; and the update, which is
compensated.
-/

namespace FlexConfig

open Procedure

/-- What the routine has computed when it begins to post: the operations, the removed nodes
and the index without them. -/
structure Begun (env : Env) (patch jconfig : Json) (before : Draft) (items : List DiffItem)
    (removal : Removal) (index : References) : Prop where
  planned : planRemoval env patch jconfig before.nodeConfig = .ok removal
  parsed : patch.patchItems = .ok items
  unreferenced : removeXPathReference removal.ordered before.references = .ok index

/-- What the update has computed when it begins to post: the document, the edited tree, the
nodes to update and the index with their references. -/
structure Prepared (env : Env) (items : List DiffItem) (removal : Removal) (before : Draft)
    (json_config : Json) (edited : Node) (ordered : List Str) (saved : References) : Prop where
  edits : editNodes env items removal before.nodeConfig = .ok json_config edited
  planned : planUpdate env items edited before.references = .ok (ordered, saved)

section Update

variable {env : Env} {jconfig : Json} {items : List DiffItem} {removal : Removal}
  {before after : Draft}

/-- The update returns when its plan does and every message is answered. -/
theorem performUpdate_eq_ok {json_config : Json} :
    performUpdate env jconfig items removal before = .ok json_config after ↔
      ∃ edited ordered saved log,
        Prepared env items removal before json_config edited ordered saved ∧
          postUpdates env edited jconfig json_config [] ordered before.posts = .ok ⟨⟩ log ∧
          after = ⟨edited, saved, log⟩ := by
  unfold performUpdate onNode onPosts
  constructor
  · intro returned
    obtain ⟨json, _, focused, returned⟩ := bind_eq_ok.mp returned
    obtain ⟨edited, edits, rfl⟩ := focus_eq_ok.mp focused
    rw [get_bind] at returned
    obtain ⟨plan, _, attempted, returned⟩ := bind_eq_ok.mp returned
    obtain ⟨planned, rfl⟩ := attempt_eq_ok.mp attempted
    rw [modify_bind] at returned
    obtain ⟨_, _, focused, returned⟩ := bind_eq_ok.mp returned
    obtain ⟨log, posted, rfl⟩ := focus_eq_ok.mp focused
    cases returned
    exact ⟨edited, plan.1, plan.2, log, ⟨edits, planned⟩, posted, rfl⟩
  · rintro ⟨edited, ordered, saved, log, prepared, posted, rfl⟩
    refine bind_eq_ok.mpr ⟨_, _, focus_eq_ok.mpr ⟨edited, prepared.edits, rfl⟩, ?_⟩
    rw [get_bind]
    refine bind_eq_ok.mpr ⟨_, _, attempt_eq_ok.mpr ⟨prepared.planned, rfl⟩, ?_⟩
    rw [modify_bind]
    exact bind_eq_ok.mpr ⟨_, _, focus_eq_ok.mpr ⟨log, posted, rfl⟩, rfl⟩

/-- The update halts in the edit, in the plan, or in a message. -/
theorem performUpdate_eq_error {reason : Halt} :
    performUpdate env jconfig items removal before = .error reason after ↔
      (∃ edited, editNodes env items removal before.nodeConfig = .error reason edited ∧
        after = { before with nodeConfig := edited }) ∨
      (∃ json_config edited,
        editNodes env items removal before.nodeConfig = .ok json_config edited ∧
          planUpdate env items edited before.references = .error reason ∧
          after = { before with nodeConfig := edited }) ∨
      ∃ json_config edited ordered saved log,
        Prepared env items removal before json_config edited ordered saved ∧
          postUpdates env edited jconfig json_config [] ordered before.posts =
            .error reason log ∧
          after = ⟨edited, saved, log⟩ := by
  unfold performUpdate onNode onPosts
  constructor
  · intro halted
    rcases bind_eq_error.mp halted with early | ⟨json, _, focused, halted⟩
    · exact Or.inl (focus_eq_error.mp early)
    obtain ⟨edited, edits, rfl⟩ := focus_eq_ok.mp focused
    rw [get_bind] at halted
    rcases bind_eq_error.mp halted with attempted | ⟨plan, _, attempted, halted⟩
    · obtain ⟨refused, rfl⟩ := attempt_eq_error.mp attempted
      exact Or.inr (Or.inl ⟨json, edited, edits, refused, rfl⟩)
    obtain ⟨planned, rfl⟩ := attempt_eq_ok.mp attempted
    rw [modify_bind] at halted
    rcases bind_eq_error.mp halted with focused | ⟨_, _, _, impossible⟩
    · obtain ⟨log, unanswered, rfl⟩ := focus_eq_error.mp focused
      exact Or.inr (Or.inr
        ⟨json, edited, plan.1, plan.2, log, ⟨edits, planned⟩, unanswered, rfl⟩)
    · cases impossible
  · rintro (⟨edited, edits, rfl⟩ | ⟨json, edited, edits, refused, rfl⟩ |
      ⟨json, edited, ordered, saved, log, prepared, unanswered, rfl⟩)
    · exact bind_eq_error.mpr (Or.inl (focus_eq_error.mpr ⟨edited, edits, rfl⟩))
    · refine bind_eq_error.mpr (Or.inr ⟨_, _, focus_eq_ok.mpr ⟨edited, edits, rfl⟩, ?_⟩)
      rw [get_bind]
      exact bind_eq_error.mpr (Or.inl (attempt_eq_error.mpr ⟨refused, rfl⟩))
    · refine bind_eq_error.mpr (Or.inr ⟨_, _, focus_eq_ok.mpr ⟨edited, prepared.edits, rfl⟩, ?_⟩)
      rw [get_bind]
      refine bind_eq_error.mpr
        (Or.inr ⟨_, _, attempt_eq_ok.mpr ⟨prepared.planned, rfl⟩, ?_⟩)
      rw [modify_bind]
      exact bind_eq_error.mpr (Or.inl (focus_eq_error.mpr ⟨log, unanswered, rfl⟩))

/-- A halted update leaves the tree as the edit has left it. -/
theorem performUpdate_error_nodeConfig {reason : Halt}
    (halted : performUpdate env jconfig items removal before = .error reason after) :
    after.nodeConfig = final (editNodes env items removal before.nodeConfig) := by
  rcases performUpdate_eq_error.mp halted with ⟨edited, edits, rfl⟩ |
    ⟨json, edited, edits, _, rfl⟩ | ⟨json, edited, ordered, saved, log, prepared, _, rfl⟩
  · rw [edits, final_error]
  · rw [edits, final_ok]
  · rw [prepared.edits, final_ok]

end Update

section Whole

variable {env : Env} {site : Site} {patch jconfig : Json} {before after : Draft}

/-- The routine from the plan on, once that is made. -/
theorem routine_of_begun {items : List DiffItem} {removal : Removal} {index : References}
    (begun : Begun env patch jconfig before items removal index) :
    fMakeCandidateConfigInternal env site patch jconfig before =
      (onPosts (postDeletions env site [] removal.ordered) >>= fun _ =>
        compensated (· = .rejected)
          (onPosts (rollback_removed_nodes env site removal.ordered.reverse))
          (performUpdate env jconfig items removal)) { before with references := index } := by
  unfold fMakeCandidateConfigInternal
  rw [get_bind, bind_of_ok (attempt_eq_ok.mpr ⟨begun.planned, rfl⟩),
    bind_of_ok (attempt_eq_ok.mpr ⟨begun.parsed, rfl⟩),
    bind_of_ok (attempt_eq_ok.mpr ⟨begun.unreferenced, rfl⟩), modify_bind]

/-- The routine halts before it has written anything, or it begins. -/
theorem begun_or_unwritten (env : Env) (site : Site) (patch jconfig : Json) (before : Draft) :
    (∃ reason, fMakeCandidateConfigInternal env site patch jconfig before =
        .error reason before) ∨
      ∃ items removal index, Begun env patch jconfig before items removal index := by
  unfold fMakeCandidateConfigInternal
  rw [get_bind]
  cases planned : planRemoval env patch jconfig before.nodeConfig with
  | error reason =>
      exact Or.inl ⟨reason, bind_of_error (attempt_eq_error.mpr ⟨rfl, rfl⟩)⟩
  | ok removal =>
      rw [bind_of_ok (attempt_eq_ok.mpr ⟨rfl, rfl⟩)]
      cases parsed : patch.patchItems with
      | error reason =>
          exact Or.inl ⟨reason, bind_of_error (attempt_eq_error.mpr ⟨rfl, rfl⟩)⟩
      | ok items =>
          rw [bind_of_ok (attempt_eq_ok.mpr ⟨rfl, rfl⟩)]
          cases unreferenced : removeXPathReference removal.ordered before.references with
          | error reason =>
              exact Or.inl ⟨reason, bind_of_error (attempt_eq_error.mpr ⟨rfl, rfl⟩)⟩
          | ok index => exact Or.inr ⟨items, removal, index, planned, parsed, unreferenced⟩

/-- The routine returns when the plan is made, every deletion is answered, and the update
returns. -/
theorem routine_eq_ok {json_config : Json} :
    fMakeCandidateConfigInternal env site patch jconfig before = .ok json_config after ↔
      ∃ items removal index log,
        Begun env patch jconfig before items removal index ∧
          postDeletions env site [] removal.ordered before.posts = .ok ⟨⟩ log ∧
          performUpdate env jconfig items removal ⟨before.nodeConfig, index, log⟩ =
            .ok json_config after := by
  constructor
  · intro returned
    rcases begun_or_unwritten env site patch jconfig before with
      ⟨reason, halted⟩ | ⟨items, removal, index, begun⟩
    · rw [halted] at returned
      cases returned
    · rw [routine_of_begun begun, onPosts] at returned
      obtain ⟨_, _, focused, returned⟩ := bind_eq_ok.mp returned
      obtain ⟨log, posted, rfl⟩ := focus_eq_ok.mp focused
      exact ⟨items, removal, index, log, begun, posted, compensated_eq_ok.mp returned⟩
  · rintro ⟨items, removal, index, log, begun, posted, updated⟩
    rw [routine_of_begun begun, onPosts]
    exact bind_eq_ok.mpr
      ⟨_, _, focus_eq_ok.mpr ⟨log, posted, rfl⟩, compensated_eq_ok.mpr updated⟩

/-- The course of a routine that returns: what it has computed and posted, phase by phase. -/
structure Course (env : Env) (site : Site) (patch jconfig : Json) (before : Draft) where
  items : List DiffItem
  removal : Removal
  index : References
  deletions : Log
  json_config : Json
  edited : Node
  ordered : List Str
  saved : References
  posts : Log
  begun : Begun env patch jconfig before items removal index
  deleted : postDeletions env site [] removal.ordered before.posts = .ok ⟨⟩ deletions
  prepared : Prepared env items removal ⟨before.nodeConfig, index, deletions⟩ json_config edited
    ordered saved
  updated : postUpdates env edited jconfig json_config [] ordered deletions = .ok ⟨⟩ posts

namespace Course

/-- What the routine has written at the end of its course. -/
def draft (course : Course env site patch jconfig before) : Draft :=
  ⟨course.edited, course.saved, course.posts⟩

/-- The routine returns exactly at the end of a course. -/
theorem routine_eq_ok_iff {json_config : Json} {last : Draft} :
    fMakeCandidateConfigInternal env site patch jconfig before = .ok json_config last ↔
      ∃ course : Course env site patch jconfig before,
        course.json_config = json_config ∧ course.draft = last := by
  rw [routine_eq_ok]
  constructor
  · rintro ⟨items, removal, index, deletions, begun, deleted, updated⟩
    obtain ⟨edited, ordered, saved, posts, prepared, posted, rfl⟩ :=
      performUpdate_eq_ok.mp updated
    exact ⟨⟨items, removal, index, deletions, json_config, edited, ordered, saved, posts, begun,
      deleted, prepared, posted⟩, rfl, rfl⟩
  · rintro ⟨course, rfl, rfl⟩
    exact ⟨course.items, course.removal, course.index, course.deletions, course.begun,
      course.deleted, performUpdate_eq_ok.mpr ⟨course.edited, course.ordered, course.saved,
        course.posts, course.prepared, course.updated, rfl⟩⟩

/-- Compute the course of a routine. -/
def find (env : Env) (site : Site) (patch jconfig : Json) (before : Draft) :
    Option (Course env site patch jconfig before) :=
  match planned : planRemoval env patch jconfig before.nodeConfig with
  | .error _ => none
  | .ok removal =>
    match parsed : patch.patchItems, unreferenced :
        removeXPathReference removal.ordered before.references with
    | .ok items, .ok index =>
      match deleted : postDeletions env site [] removal.ordered before.posts with
      | .error _ _ => none
      | .ok ⟨⟩ deletions =>
        match edits : editNodes env items removal before.nodeConfig with
        | .error _ _ => none
        | .ok json_config edited =>
          match plan : planUpdate env items edited index with
          | .error _ => none
          | .ok (ordered, saved) =>
            match updated :
                postUpdates env edited jconfig json_config [] ordered deletions with
            | .error _ _ => none
            | .ok ⟨⟩ posts =>
              some ⟨items, removal, index, deletions, json_config, edited, ordered, saved, posts,
                ⟨planned, parsed, unreferenced⟩, deleted, ⟨edits, plan⟩, updated⟩
    | _, _ => none

/-- There is only one course. -/
theorem eq (course other : Course env site patch jconfig before) : course = other := by
  obtain ⟨items, removal, index, deletions, json, edited, ordered, saved, posts, begun, deleted,
    prepared, updated⟩ := course
  obtain ⟨items', removal', index', deletions', json', edited', ordered', saved', posts', begun',
    deleted', prepared', updated'⟩ := other
  have sameItems := begun.parsed.symm.trans begun'.parsed
  cases sameItems
  have samePlan := begun.planned.symm.trans begun'.planned
  cases samePlan
  have sameIndex := begun.unreferenced.symm.trans begun'.unreferenced
  cases sameIndex
  have sameDeletions := deleted.symm.trans deleted'
  cases sameDeletions
  have sameEdit := prepared.edits.symm.trans prepared'.edits
  cases sameEdit
  have sameUpdate := prepared.planned.symm.trans prepared'.planned
  cases sameUpdate
  have samePosts := updated.symm.trans updated'
  cases samePosts
  rfl

/-- The course is found where there is one. -/
theorem mem_find (course : Course env site patch jconfig before) :
    course ∈ find env site patch jconfig before := by
  have found : find env site patch jconfig before ≠ none := by
    unfold find
    split
    · next refused =>
        have impossible := refused.symm.trans course.begun.planned
        cases impossible
    next removal planned =>
    have sameRemoval := planned.symm.trans course.begun.planned
    cases sameRemoval
    split
    · next items index parsed unreferenced =>
        have sameItems := parsed.symm.trans course.begun.parsed
        cases sameItems
        have sameIndex := unreferenced.symm.trans course.begun.unreferenced
        cases sameIndex
        split
        · next unanswered =>
            have impossible := unanswered.symm.trans course.deleted
            cases impossible
        next deletions deleted =>
        split
        · next halted =>
            have impossible := halted.symm.trans course.prepared.edits
            cases impossible
        next json_config edited edits =>
        have sameEdit := edits.symm.trans course.prepared.edits
        cases sameEdit
        split
        · next refused =>
            have impossible := refused.symm.trans course.prepared.planned
            cases impossible
        next ordered saved plan =>
        have sameUpdate := plan.symm.trans course.prepared.planned
        cases sameUpdate
        have sameDeletions := deleted.symm.trans course.deleted
        cases sameDeletions
        split
        · next unanswered =>
            have impossible := unanswered.symm.trans course.updated
            cases impossible
        · exact Option.some_ne_none _
    · next unfinished =>
        exact (unfinished _ _ course.begun.parsed course.begun.unreferenced).elim
  obtain ⟨other, same⟩ := Option.ne_none_iff_exists'.mp found
  rw [eq course other]
  exact same

end Course

/-- Where the routine halts once it has begun: in a deletion, in the update with no
compensation, or in the update with the compensation after it. -/
theorem routine_eq_error {items : List DiffItem} {removal : Removal} {index : References}
    (begun : Begun env patch jconfig before items removal index) {reason : Halt}
    (halted : fMakeCandidateConfigInternal env site patch jconfig before = .error reason after) :
    (∃ log, postDeletions env site [] removal.ordered before.posts = .error reason log ∧
        after = ⟨before.nodeConfig, index, log⟩) ∨
      ∃ log cause between,
        postDeletions env site [] removal.ordered before.posts = .ok ⟨⟩ log ∧
          performUpdate env jconfig items removal ⟨before.nodeConfig, index, log⟩ =
            .error cause between ∧
          ((cause ≠ .rejected ∧ reason = cause ∧ after = between) ∨
            (cause = .rejected ∧ ∃ rest, after = { between with posts := rest } ∧
              (rollback_removed_nodes env site removal.ordered.reverse between.posts =
                  .error reason rest ∨
                rollback_removed_nodes env site removal.ordered.reverse between.posts =
                  .ok ⟨⟩ rest ∧ reason = .rejected))) := by
  rw [routine_of_begun begun, onPosts, onPosts] at halted
  rcases bind_eq_error.mp halted with focused | ⟨_, _, focused, halted⟩
  · obtain ⟨log, unanswered, rfl⟩ := focus_eq_error.mp focused
    exact Or.inl ⟨log, unanswered, rfl⟩
  obtain ⟨log, posted, rfl⟩ := focus_eq_ok.mp focused
  obtain ⟨cause, between, updated, ending⟩ := compensated_eq_error halted
  refine Or.inr ⟨log, cause, between, posted, updated, ?_⟩
  rcases ending with ⟨uncaught, same, rfl⟩ | ⟨caught, ending⟩
  · exact Or.inl ⟨of_decide_eq_false uncaught, same, rfl⟩
  · have rejected := of_decide_eq_true caught
    rcases ending with focused | ⟨_, focused, same⟩
    · obtain ⟨rest, failed, rfl⟩ := focus_eq_error.mp focused
      exact Or.inr ⟨rejected, rest, rfl, Or.inl failed⟩
    · obtain ⟨rest, undone, rfl⟩ := focus_eq_ok.mp focused
      exact Or.inr ⟨rejected, rest, rfl, Or.inr ⟨undone, same.trans rejected⟩⟩

/-- The routine halts in the update after it has made the tree another one. -/
def HaltsEdited (env : Env) (site : Site) (patch jconfig : Json) (before : Draft) : Prop :=
  ∃ items removal index log cause between,
    Begun env patch jconfig before items removal index ∧
      postDeletions env site [] removal.ordered before.posts = .ok ⟨⟩ log ∧
      performUpdate env jconfig items removal ⟨before.nodeConfig, index, log⟩ =
        .error cause between ∧
      final (editNodes env items removal before.nodeConfig) ≠ before.nodeConfig

/-- A routine that halts leaves the tree as it was exactly when it did not halt with an edited
tree. -/
theorem routine_error_keeps_tree_iff {reason : Halt}
    (halted : fMakeCandidateConfigInternal env site patch jconfig before = .error reason after) :
    after.nodeConfig = before.nodeConfig ↔ ¬ HaltsEdited env site patch jconfig before := by
  constructor
  · rintro same ⟨items, removal, index, log, cause, between, begun, posted, updated, differs⟩
    have edited := performUpdate_error_nodeConfig updated
    rcases routine_eq_error begun halted with ⟨_, unanswered, _⟩ |
      ⟨log', cause', between', posted', updated', ending⟩
    · rw [posted] at unanswered
      cases unanswered
    · rw [posted] at posted'
      cases posted'
      rw [updated] at updated'
      cases updated'
      apply differs
      rw [← edited]
      rcases ending with ⟨_, _, rfl⟩ | ⟨_, rest, rfl, _⟩
      · exact same
      · exact same
  · intro unedited
    rcases begun_or_unwritten env site patch jconfig before with
      ⟨_, unwritten⟩ | ⟨items, removal, index, begun⟩
    · rw [unwritten] at halted
      cases halted
      rfl
    · rcases routine_eq_error begun halted with ⟨_, _, rfl⟩ |
        ⟨log, cause, between, posted, updated, ending⟩
      · rfl
      · have edited := performUpdate_error_nodeConfig updated
        have kept : between.nodeConfig = before.nodeConfig := by
          by_contra differs
          rw [edited] at differs
          exact unedited
            ⟨items, removal, index, log, cause, between, begun, posted, updated, differs⟩
        rcases ending with ⟨_, _, rfl⟩ | ⟨_, rest, rfl, _⟩
        · exact kept
        · exact kept

end Whole

end FlexConfig
