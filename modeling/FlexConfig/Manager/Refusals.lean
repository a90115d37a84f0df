import FlexConfig.Manager.Faults
import FlexConfig.Manager.Operations

/-! # When an apply and a cancellation are refused

What the manager finds, and how the operations on the file and the messages to the backend
end, decides whether a call answers `false`. Raising is another outcome: it leaves the
call without an answer.
-/

namespace FlexConfig

open Procedure

/-- A procedure halts with a refusal. -/
def Refuses {σ α : Type} (body : EStateM Halt σ α) (state : σ) : Prop :=
  ∃ next, body state = .error .rejected next

section Routine

variable {env : Env} {site : Site} {patch jconfig : Json} {before : Draft}

/-- Posting the deleted nodes anew can end the process or raise, and is not refused. -/
theorem rollback_removed_nodes_not_refused (removed : List Str) (log : Log) :
    ¬ Refuses (rollback_removed_nodes env site removed) log := by
  rintro ⟨next, refused⟩
  induction removed generalizing log with
  | nil => cases refused
  | cons xpath rest ih =>
      rcases bind_eq_error.mp refused with refused | ⟨_, between, _, refused⟩
      · rcases bind_eq_error.mp refused with early | ⟨message, same, made, refused⟩
        · exact restoreAction_avoids _ _ _ _ (attempt_eq_error.mp early).1
        · cases message with
          | none => cases refused
          | some message =>
              rcases bind_eq_error.mp refused with early | ⟨answer, _, _, refused⟩
              · cases early
              · cases answer <;> cases refused
      · exact ih between refused

/-- How the routine comes to be refused: by its plan, by a reference to a removed node, by a
deletion, or by the update, after which what was deleted is posted anew. -/
inductive RoutineRefused (env : Env) (site : Site) (patch jconfig : Json) (before : Draft) :
    Prop where
  | plan (refused : planRemoval env patch jconfig before.nodeConfig = .error .rejected)
  | referenced {removal : Removal} {items : List DiffItem}
      (planned : planRemoval env patch jconfig before.nodeConfig = .ok removal)
      (parsed : patch.patchItems = .ok items)
      (refused : removeXPathReference removal.ordered before.references = .error .rejected)
  | deletion {items : List DiffItem} {removal : Removal} {index : References}
      (begun : Begun env patch jconfig before items removal index)
      (refused : Refuses (postDeletions env site [] removal.ordered) before.posts)
  | update {items : List DiffItem} {removal : Removal} {index : References}
      {log rest : Log} {between : Draft}
      (begun : Begun env patch jconfig before items removal index)
      (deleted : postDeletions env site [] removal.ordered before.posts = .ok ⟨⟩ log)
      (refused : performUpdate env jconfig items removal ⟨before.nodeConfig, index, log⟩ =
        .error .rejected between)
      (restored : rollback_removed_nodes env site removal.ordered.reverse between.posts =
        .ok ⟨⟩ rest)

theorem patchItems_of_planned {removal : Removal} {node_config : Node}
    (planned : planRemoval env patch jconfig node_config = .ok removal) :
    ∃ items, patch.patchItems = .ok items := by
  obtain ⟨_, _, planned⟩ := except_bind_eq_ok.mp planned
  obtain ⟨items, parsed, _⟩ := except_bind_eq_ok.mp planned
  exact ⟨items, parsed⟩

theorem routine_refuses_iff :
    Refuses (fMakeCandidateConfigInternal env site patch jconfig) before ↔
      RoutineRefused env site patch jconfig before := by
  constructor
  · rintro ⟨after, refused⟩
    by_cases begun : ∃ items removal index, Begun env patch jconfig before items removal index
    · obtain ⟨items, removal, index, begun⟩ := begun
      rcases routine_eq_error begun refused with ⟨log, unanswered, _⟩ |
        ⟨log, cause, between, deleted, updated, ending⟩
      · exact .deletion begun ⟨log, unanswered⟩
      · rcases ending with ⟨uncaught, same, _⟩ | ⟨rfl, rest, _, restored⟩
        · exact absurd same.symm uncaught
        · rcases restored with impossible | ⟨restored, _⟩
          · exact (rollback_removed_nodes_not_refused _ _ ⟨rest, impossible⟩).elim
          · exact .update begun deleted updated restored
    · unfold fMakeCandidateConfigInternal at refused
      rw [get_bind] at refused
      rcases bind_eq_error.mp refused with early | ⟨removal, _, attempted, refused⟩
      · exact .plan (attempt_eq_error.mp early).1
      obtain ⟨planned, rfl⟩ := attempt_eq_ok.mp attempted
      obtain ⟨items, parsed⟩ := patchItems_of_planned planned
      rw [bind_of_ok (attempt_eq_ok.mpr ⟨parsed, rfl⟩)] at refused
      rcases bind_eq_error.mp refused with early | ⟨index, _, attempted, _⟩
      · exact .referenced planned parsed (attempt_eq_error.mp early).1
      · exact absurd ⟨items, removal, index, planned, parsed, (attempt_eq_ok.mp attempted).1⟩ begun
  · intro refusal
    cases refusal with
    | plan refused =>
        refine ⟨before, ?_⟩
        unfold fMakeCandidateConfigInternal
        rw [get_bind]
        exact bind_of_error (attempt_eq_error.mpr ⟨refused, rfl⟩)
    | referenced planned parsed refused =>
        refine ⟨before, ?_⟩
        unfold fMakeCandidateConfigInternal
        rw [get_bind, bind_of_ok (attempt_eq_ok.mpr ⟨planned, rfl⟩),
          bind_of_ok (attempt_eq_ok.mpr ⟨parsed, rfl⟩)]
        exact bind_of_error (attempt_eq_error.mpr ⟨refused, rfl⟩)
    | @deletion items removal index begun refused =>
        obtain ⟨log, unanswered⟩ := refused
        refine ⟨⟨before.nodeConfig, index, log⟩, ?_⟩
        rw [routine_of_begun begun]
        exact bind_of_error (focus_eq_error.mpr ⟨log, unanswered, rfl⟩)
    | @update items removal index log rest between begun deleted refused restored =>
        refine ⟨{ between with posts := rest }, ?_⟩
        have posted : onPosts (postDeletions env site [] removal.ordered)
            { before with references := index } = .ok ⟨⟩ ⟨before.nodeConfig, index, log⟩ :=
          focus_eq_ok.mpr ⟨log, deleted, rfl⟩
        have undone : onPosts (rollback_removed_nodes env site removal.ordered.reverse) between =
            .ok ⟨⟩ { between with posts := rest } := focus_eq_ok.mpr ⟨rest, restored, rfl⟩
        rw [routine_of_begun begun, bind_of_ok posted]
        exact compensated_of_caught refused rfl undone

end Routine

namespace Manager

variable {env : Env} {manager : Manager}

/-- An apply that is not refused finds a candidate, and its file operations succeed, unless
the document that is written is null, which raises. -/
def Applies (files : FileOutcome) (manager : Manager) : Prop :=
  manager.isCandidateConfigReady = true ∧ files.opens = true ∧
    (manager.candidateJson ≠ .null → files.writes = true ∧ files.renames = true)

instance (files : FileOutcome) (manager : Manager) : Decidable (Applies files manager) :=
  inferInstanceAs (Decidable (_ ∧ _))

theorem apply_refuses_iff (files : FileOutcome) :
    Refuses (applyCandidateConfig files) manager ↔ ¬ Applies files manager := by
  have written : Refuses (applyCandidateConfig files) manager ↔
      (!manager.isCandidateConfigReady || !files.opens) = true ∨
        manager.candidateJson ≠ .null ∧ (!files.writes || !files.renames) = true := by
    unfold Refuses applyCandidateConfig
    rw [get_bind]
    by_cases early : (!manager.isCandidateConfigReady || !files.opens) = true
    · rw [if_pos early]
      exact iff_of_true ⟨manager, rfl⟩ (Or.inl early)
    · rw [if_neg early, or_iff_right early]
      by_cases document : manager.candidateJson = .null
      · have raised : storedJson manager.candidateJson = .error .raised := by
          rw [storedJson, if_pos document]
        rw [bind_of_error (attempt_eq_error.mpr ⟨raised, rfl⟩)]
        refine iff_of_false ?_ fun both => both.1 document
        rintro ⟨_, ⟨⟩⟩
      · have stored : storedJson manager.candidateJson = .ok manager.candidateJson := by
          rw [storedJson, if_neg document]
        rw [bind_of_ok (attempt_eq_ok.mpr ⟨stored, rfl⟩), and_iff_right document]
        by_cases late : (!files.writes || !files.renames) = true
        · rw [if_pos late]
          exact iff_of_true ⟨manager, rfl⟩ late
        · rw [if_neg late]
          refine iff_of_false ?_ late
          rintro ⟨_, ⟨⟩⟩
  rw [written, Applies]
  cases manager.isCandidateConfigReady <;> cases files.opens <;> cases files.writes <;> simp

/-- A cancellation that is not refused finds a candidate, the running document it goes back
to is valid, and the routine that goes back is not refused. -/
structure Cancels (env : Env) (manager : Manager) : Prop where
  ready : manager.isCandidateConfigReady = true
  valid : rollbackPatch env manager ≠ .error .rejected
  goesBack : ∀ patch jconfig tree, Cancellable env manager patch jconfig tree →
    ¬ RoutineRefused env manager.site patch jconfig (manager.runningDraft tree)

theorem cancel_refuses_iff :
    Refuses (cancelCandidateConfig env) manager ↔ ¬ Cancels env manager := by
  by_cases cancellable : ∃ patch jconfig tree, Cancellable env manager patch jconfig tree
  · obtain ⟨patch, jconfig, tree, cancellable⟩ := cancellable
    have only : Cancels env manager ↔
        ¬ RoutineRefused env manager.site patch jconfig (manager.runningDraft tree) := by
      refine ⟨fun cancels => cancels.goesBack _ _ _ cancellable, fun unrefused => ⟨?_, ?_, ?_⟩⟩
      · exact cancellable.ready
      · intro refused
        cases cancellable.rollback.symm.trans refused
      · intro patch' jconfig' tree' other
        cases cancellable.rollback.symm.trans other.rollback
        cases cancellable.candidate.symm.trans other.candidate
        exact unrefused
    rw [only, not_not, ← routine_refuses_iff]
    unfold Refuses
    rw [cancel_of_cancellable cancellable]
    cases fMakeCandidateConfigInternal env manager.site patch jconfig
        (manager.runningDraft tree) with
    | ok json_config draft =>
        exact iff_of_false (fun ⟨_, impossible⟩ => by cases impossible)
          fun ⟨_, impossible⟩ => by cases impossible
    | error reason draft =>
        cases reason with
        | rejected => exact iff_of_true ⟨_, rfl⟩ ⟨draft, rfl⟩
        | raised | exited | crashed =>
            exact iff_of_false (fun ⟨_, impossible⟩ => by cases impossible)
              fun ⟨_, impossible⟩ => by cases impossible
  · have noRoutine : Cancels env manager ↔ manager.isCandidateConfigReady = true ∧
        rollbackPatch env manager ≠ .error .rejected :=
      ⟨fun cancels => ⟨cancels.ready, cancels.valid⟩, fun both => ⟨both.1, both.2,
        fun _ _ _ other => absurd ⟨_, _, _, other⟩ cancellable⟩⟩
    rw [noRoutine]
    unfold Refuses cancelCandidateConfig
    rw [get_bind]
    cases ready : manager.isCandidateConfigReady with
    | false => exact iff_of_true ⟨manager, rfl⟩ fun both => Bool.false_ne_true both.1
    | true =>
        rw [if_neg (show ¬ (!true) = true from Bool.false_ne_true), and_iff_right rfl, not_not]
        cases rollback : rollbackPatch env manager with
        | error reason =>
            rw [bind_of_error (attempt_eq_error.mpr ⟨rfl, rfl⟩)]
            constructor
            · rintro ⟨_, refused⟩
              cases refused
              rfl
            · intro same
              cases same
              exact ⟨manager, rfl⟩
        | ok pair =>
            have candidate : manager.candidateConfig = none := by
              cases candidate : manager.candidateConfig with
              | none => rfl
              | some tree =>
                  exact absurd ⟨pair.1, pair.2, tree, ready, rollback, candidate⟩ cancellable
            rw [bind_of_ok (attempt_eq_ok.mpr ⟨rfl, rfl⟩), candidate]
            exact iff_of_false (fun ⟨_, impossible⟩ => by cases impossible)
              fun impossible => by cases impossible

end Manager

end FlexConfig
