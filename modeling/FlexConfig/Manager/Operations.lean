import FlexConfig.Manager.Routine

/-! # What each operation of the manager does

Making, applying and cancelling a candidate, each as one equation from the state
before the call: an operation is refused before it has written anything, or it is
admitted and its outcome is that of the routine.
-/

namespace FlexConfig.Manager

open Procedure

variable {env : Env} {manager : Manager}

/-- The manager with what the routine has written while it worked on a copy of the tree. -/
def keep (manager : Manager) (draft : Draft) : Manager :=
  { manager with candidateReferences := draft.references, posts := draft.posts }

/-- What the routine starts from when a candidate is made. -/
def runningDraft (manager : Manager) (root : Node) : Draft :=
  ⟨root, manager.candidateReferences, manager.posts⟩

/-- What a successful reload has done: it validated the document, built its tree, ordered its
nodes and saved their references. -/
theorem reload_eq_ok {jconfig : Json} {index : References} {reloaded : Node × References} :
    fReloadNodeConfig env jconfig index = .ok reloaded ↔
      ∃ jschema ordered, env.loadedSchema = .ok jschema ∧ env.validate jconfig jschema = true ∧
        buildTree env jconfig = .ok reloaded.1 ∧
        NodeDependencyManager.resolve env reloaded.1 = .ok ordered ∧
        saveXPathReference env ordered reloaded.1 index = .ok reloaded.2 := by
  unfold fReloadNodeConfig
  constructor
  · intro returned
    obtain ⟨jschema, schema, returned⟩ := except_bind_eq_ok.mp returned
    split at returned
    · next valid =>
        obtain ⟨root, built, returned⟩ := except_bind_eq_ok.mp returned
        obtain ⟨ordered, resolved, returned⟩ := except_bind_eq_ok.mp returned
        obtain ⟨saved, references, finished⟩ := except_bind_eq_ok.mp returned
        cases finished
        exact ⟨jschema, ordered, schema, valid, built, resolved, references⟩
    · cases returned
  · rintro ⟨jschema, ordered, schema, valid, built, resolved, references⟩
    refine except_bind_eq_ok.mpr ⟨jschema, schema, ?_⟩
    rw [if_pos valid]
    refine except_bind_eq_ok.mpr ⟨reloaded.1, built, ?_⟩
    refine except_bind_eq_ok.mpr ⟨ordered, resolved, ?_⟩
    exact except_bind_eq_ok.mpr ⟨reloaded.2, references, rfl⟩

section Make

/-- A patch the routine is run on: the manager has a running configuration, whose copy is
edited, and the patch is the computed difference to what it produces. -/
structure Admitted (env : Env) (manager : Manager) (patch : Json) (root : Node) : Prop where
  running : ∃ tree, manager.runningConfig = some tree ∧ getNodeConfigCopy tree = root
  document : manager.runningJson ≠ .null
  canonical : fValidatePatch patch manager.runningJson = .ok false

variable {patch : Json} {root : Node}

theorem Admitted.unique {other : Node} (first : Admitted env manager patch root)
    (second : Admitted env manager patch other) : other = root := by
  obtain ⟨tree, running, rfl⟩ := first.running
  obtain ⟨_, running', rfl⟩ := second.running
  cases running.symm.trans running'
  rfl

/-- The manager with a new candidate. -/
def withCandidate (manager : Manager) (draft : Draft) (json_config : Json)
    (reloaded : Node × References) : Manager :=
  { manager.keep draft with
    candidateConfig := some reloaded.1
    candidateJson := json_config
    isCandidateConfigReady := true
    runningReferences := reloaded.2
    candidateReferences := reloaded.2 }

/-- A patch that is not admitted changes nothing. -/
theorem make_of_not_admitted (refused : ¬ ∃ root, Admitted env manager patch root) :
    ∃ reason, makeCandidateConfig env patch manager = .error reason manager := by
  unfold makeCandidateConfig
  rw [get_bind]
  cases running : manager.runningConfig with
  | none => exact ⟨.crashed, bind_of_error (attempt_eq_error.mpr ⟨rfl, rfl⟩)⟩
  | some tree =>
      rw [bind_of_ok (attempt_eq_ok.mpr ⟨(rfl : deref (some tree) = .ok tree), rfl⟩)]
      by_cases document : manager.runningJson = .null
      · refine ⟨.raised, bind_of_error (attempt_eq_error.mpr ⟨?_, rfl⟩)⟩
        rw [storedJson, if_pos document]
      · have stored : storedJson manager.runningJson = .ok manager.runningJson := by
          rw [storedJson, if_neg document]
        rw [bind_of_ok (attempt_eq_ok.mpr ⟨stored, rfl⟩)]
        cases canonical : fValidatePatch patch manager.runningJson with
        | error reason => exact ⟨reason, bind_of_error (attempt_eq_error.mpr ⟨rfl, rfl⟩)⟩
        | ok invalid =>
            cases invalid with
            | true =>
                rw [bind_of_ok (attempt_eq_ok.mpr ⟨rfl, rfl⟩)]
                exact ⟨.rejected, rfl⟩
            | false =>
                exact absurd ⟨_, ⟨tree, running, rfl⟩, document, canonical⟩ refused

/-- An admitted patch has the outcome of the routine, and then of the reload. -/
theorem make_of_admitted (admitted : Admitted env manager patch root) :
    makeCandidateConfig env patch manager =
      match fMakeCandidateConfigInternal env manager.site patch manager.runningJson
          (manager.runningDraft root) with
      | .error reason draft => .error reason (manager.keep draft)
      | .ok json_config draft =>
        match fReloadNodeConfig env json_config draft.references with
        | .error reason => .error reason (manager.keep draft)
        | .ok reloaded => .ok ⟨⟩ (manager.withCandidate draft json_config reloaded) := by
  have stored : storedJson manager.runningJson = .ok manager.runningJson := by
    rw [storedJson, if_neg admitted.document]
  obtain ⟨tree, running, rfl⟩ := admitted.running
  have dereferenced : deref manager.runningConfig = .ok tree := by rw [running]; rfl
  unfold makeCandidateConfig
  rw [get_bind, bind_of_ok (attempt_eq_ok.mpr ⟨dereferenced, rfl⟩),
    bind_of_ok (attempt_eq_ok.mpr ⟨stored, rfl⟩),
    bind_of_ok (attempt_eq_ok.mpr ⟨admitted.canonical, rfl⟩)]
  cases ran : fMakeCandidateConfigInternal env manager.site patch manager.runningJson
      (manager.runningDraft (getNodeConfigCopy tree)) with
  | error reason draft =>
      have copied : onRunningCopy (getNodeConfigCopy tree) (fMakeCandidateConfigInternal env manager.site patch
          manager.runningJson) manager = .error reason (manager.keep draft) :=
        focus_eq_error.mpr ⟨draft, ran, rfl⟩
      exact bind_of_error copied
  | ok json_config draft =>
      have copied : onRunningCopy (getNodeConfigCopy tree) (fMakeCandidateConfigInternal env manager.site patch
          manager.runningJson) manager = .ok json_config (manager.keep draft) :=
        focus_eq_ok.mpr ⟨draft, ran, rfl⟩
      refine (bind_of_ok copied).trans ?_
      rw [get_bind]
      cases reload : fReloadNodeConfig env json_config draft.references with
      | error reason =>
          have refused : attempt (fReloadNodeConfig env json_config
              (manager.keep draft).candidateReferences) (manager.keep draft) =
                .error reason (manager.keep draft) := attempt_eq_error.mpr ⟨reload, rfl⟩
          refine (bind_of_error refused).trans ?_
          dsimp only
          rw [reload]
      | ok reloaded =>
          have accepted : attempt (fReloadNodeConfig env json_config
              (manager.keep draft).candidateReferences) (manager.keep draft) =
                .ok reloaded (manager.keep draft) := attempt_eq_ok.mpr ⟨reload, rfl⟩
          refine (bind_of_ok accepted).trans ?_
          dsimp only
          rw [reload]
          rfl

/-- A candidate is made when the patch is admitted, the routine returns and the document it
returns can be reloaded. -/
theorem make_eq_ok {after : Manager} :
    makeCandidateConfig env patch manager = .ok ⟨⟩ after ↔
      ∃ root json_config draft reloaded, Admitted env manager patch root ∧
        fMakeCandidateConfigInternal env manager.site patch manager.runningJson
          (manager.runningDraft root) = .ok json_config draft ∧
        fReloadNodeConfig env json_config draft.references = .ok reloaded ∧
        after = manager.withCandidate draft json_config reloaded := by
  constructor
  · intro returned
    by_cases admitted : ∃ root, Admitted env manager patch root
    · obtain ⟨root, admitted⟩ := admitted
      rw [make_of_admitted admitted] at returned
      split at returned
      · cases returned
      · next json_config draft ran =>
          split at returned
          · cases returned
          · next reloaded reload =>
              cases returned
              exact ⟨root, json_config, draft, reloaded, admitted, ran, reload, rfl⟩
    · obtain ⟨reason, halted⟩ := make_of_not_admitted admitted
      rw [halted] at returned
      cases returned
  · rintro ⟨root, json_config, draft, reloaded, admitted, ran, reload, rfl⟩
    rw [make_of_admitted admitted, ran]
    dsimp only
    rw [reload]

/-- A call that makes a candidate: what the routine and the reload have computed. -/
structure Making (env : Env) (patch : Json) (manager : Manager) where
  root : Node
  course : Course env manager.site patch manager.runningJson (manager.runningDraft root)
  reloaded : Node × References
  admitted : Admitted env manager patch root
  reload : fReloadNodeConfig env course.json_config course.saved = .ok reloaded

namespace Making

/-- The manager with the candidate that was made. -/
def result (making : Making env patch manager) : Manager :=
  manager.withCandidate making.course.draft making.course.json_config making.reloaded

/-- A candidate is made exactly by such a call. -/
theorem make_eq_ok_iff {after : Manager} :
    makeCandidateConfig env patch manager = .ok ⟨⟩ after ↔
      ∃ making : Making env patch manager, making.result = after := by
  rw [make_eq_ok]
  constructor
  · rintro ⟨root, json_config, draft, reloaded, admitted, ran, reload, rfl⟩
    obtain ⟨course, rfl, rfl⟩ := Course.routine_eq_ok_iff.mp ran
    exact ⟨⟨root, course, reloaded, admitted, reload⟩, rfl⟩
  · rintro ⟨making, rfl⟩
    exact ⟨making.root, making.course.json_config, making.course.draft, making.reloaded,
      making.admitted, Course.routine_eq_ok_iff.mpr ⟨making.course, rfl, rfl⟩, making.reload, rfl⟩

/-- Compute what a call does that makes a candidate. -/
def find (env : Env) (patch : Json) (manager : Manager) : Option (Making env patch manager) :=
  match running : manager.runningConfig with
  | none => none
  | some tree =>
    if document : manager.runningJson = .null then none
    else if canonical : fValidatePatch patch manager.runningJson = .ok false then
      match Course.find env manager.site patch manager.runningJson
          (manager.runningDraft (getNodeConfigCopy tree)) with
      | none => none
      | some course =>
        match reload : fReloadNodeConfig env course.json_config course.saved with
        | .error _ => none
        | .ok reloaded =>
          some ⟨getNodeConfigCopy tree, course, reloaded,
            ⟨⟨tree, running, rfl⟩, document, canonical⟩, reload⟩
    else none

/-- Only one call makes the candidate. -/
theorem eq (making other : Making env patch manager) : making = other := by
  obtain ⟨root, course, reloaded, admitted, reload⟩ := making
  obtain ⟨root', course', reloaded', admitted', reload'⟩ := other
  obtain ⟨tree, running, rfl⟩ := admitted.running
  obtain ⟨tree', running', rfl⟩ := admitted'.running
  have sameTree := running.symm.trans running'
  cases sameTree
  have sameCourse := course.eq course'
  cases sameCourse
  have sameTree' := reload.symm.trans reload'
  cases sameTree'
  rfl

/-- The call is found where there is one. -/
theorem mem_find (making : Making env patch manager) : making ∈ find env patch manager := by
  have found : find env patch manager ≠ none := by
    obtain ⟨tree, running, copied⟩ := making.admitted.running
    unfold find
    split
    · next missing =>
        have impossible := missing.symm.trans running
        cases impossible
    next tree' running' =>
    have sameTree := running'.symm.trans running
    cases sameTree
    rw [dif_neg making.admitted.document, dif_pos making.admitted.canonical]
    split
    · next missing =>
        rw [copied, making.course.mem_find] at missing
        cases missing
    next course located =>
    have sameCourse : making.course.json_config = course.json_config ∧
        making.course.saved = course.saved := by
      obtain ⟨root, course', reloaded, admitted, reload⟩ := making
      cases copied
      rw [course.eq course']
      exact ⟨rfl, rfl⟩
    split
    · next refused =>
        have reload := making.reload
        rw [sameCourse.1, sameCourse.2, refused] at reload
        cases reload
    · exact Option.some_ne_none _
  obtain ⟨other, same⟩ := Option.ne_none_iff_exists'.mp found
  rw [eq making other]
  exact same

instance {property : Making env patch manager → Prop} [DecidablePred property] :
    Decidable (∀ making, property making) :=
  decidable_of_iff (∀ making ∈ find env patch manager, property making)
    ⟨fun all making => all making making.mem_find, fun all making _ => all making⟩

end Making

/-- An operation that halts while a candidate is made has changed nothing, or what the
routine has written. -/
theorem make_eq_error {after : Manager} {reason : Halt}
    (halted : makeCandidateConfig env patch manager = .error reason after) :
    after = manager ∨ ∃ root draft, Admitted env manager patch root ∧
      after = manager.keep draft ∧
      (fMakeCandidateConfigInternal env manager.site patch manager.runningJson
          (manager.runningDraft root) = .error reason draft ∨
        ∃ json_config, fMakeCandidateConfigInternal env manager.site patch manager.runningJson
            (manager.runningDraft root) = .ok json_config draft ∧
          fReloadNodeConfig env json_config draft.references = .error reason) := by
  by_cases admitted : ∃ root, Admitted env manager patch root
  · obtain ⟨root, admitted⟩ := admitted
    right
    rw [make_of_admitted admitted] at halted
    split at halted
    · next draft ran =>
        cases halted
        exact ⟨root, draft, admitted, rfl, Or.inl ran⟩
    · next json_config draft ran =>
        split at halted
        · next reload =>
            cases halted
            exact ⟨root, draft, admitted, rfl, Or.inr ⟨json_config, ran, reload⟩⟩
        · cases halted
  · obtain ⟨other, unchanged⟩ := make_of_not_admitted admitted
    rw [unchanged] at halted
    cases halted
    exact Or.inl rfl

end Make

section Apply

variable {files : FileOutcome}

/-- The manager after its candidate became the running configuration. -/
def applied (manager : Manager) (files : FileOutcome) : Manager :=
  { manager with
    configFile := if files.flushes then some manager.candidateJson else none
    runningConfig := manager.candidateConfig
    runningJson := manager.candidateJson
    candidateConfig := none
    candidateJson := .null
    isCandidateConfigReady := false }

/-- Applying either changes nothing or makes a pending candidate the running configuration. -/
theorem apply_cases (files : FileOutcome) (manager : Manager) :
    (∃ reason, applyCandidateConfig files manager = .error reason manager) ∨
      (manager.isCandidateConfigReady = true ∧ manager.candidateJson ≠ .null ∧
        applyCandidateConfig files manager = .ok ⟨⟩ (manager.applied files)) := by
  unfold applyCandidateConfig
  rw [get_bind]
  split
  · exact Or.inl ⟨.rejected, rfl⟩
  next admitted =>
  by_cases document : manager.candidateJson = .null
  · refine Or.inl ⟨.raised, bind_of_error (attempt_eq_error.mpr ⟨?_, rfl⟩)⟩
    rw [storedJson, if_pos document]
  · have stored : storedJson manager.candidateJson = .ok manager.candidateJson := by
      rw [storedJson, if_neg document]
    rw [bind_of_ok (attempt_eq_ok.mpr ⟨stored, rfl⟩)]
    split
    · exact Or.inl ⟨.rejected, rfl⟩
    · refine Or.inr ⟨?_, document, rfl⟩
      cases ready : manager.isCandidateConfigReady with
      | true => rfl
      | false => simp [ready] at admitted

end Apply

section Cancel

/-- A cancellation the routine is run for: a candidate is pending, and the patch back to the
running document is valid. -/
structure Cancellable (env : Env) (manager : Manager) (patch jconfig : Json) (tree : Node) :
    Prop where
  ready : manager.isCandidateConfigReady = true
  rollback : rollbackPatch env manager = .ok (patch, jconfig)
  candidate : manager.candidateConfig = some tree

variable {patch jconfig : Json} {tree : Node}

/-- The manager without its candidate. -/
def withoutCandidate (manager : Manager) (draft : Draft) : Manager :=
  { manager.keep draft with
    candidateConfig := none
    candidateJson := .null
    isCandidateConfigReady := false }

/-- The manager with what the routine has written while it worked on the candidate tree. -/
def keepEdited (manager : Manager) (draft : Draft) : Manager :=
  { manager.keep draft with candidateConfig := some draft.nodeConfig }

/-- A cancellation that the routine is not run for changes nothing. -/
theorem cancel_of_not_cancellable
    (refused : ¬ ∃ patch jconfig tree, Cancellable env manager patch jconfig tree) :
    ∃ reason, cancelCandidateConfig env manager = .error reason manager := by
  unfold cancelCandidateConfig
  rw [get_bind]
  cases ready : manager.isCandidateConfigReady with
  | false => exact ⟨.rejected, rfl⟩
  | true =>
      cases rollback : rollbackPatch env manager with
      | error reason => exact ⟨reason, bind_of_error (attempt_eq_error.mpr ⟨rfl, rfl⟩)⟩
      | ok pair =>
          simp only [Bool.not_true, Bool.false_eq_true, if_false]
          rw [bind_of_ok (attempt_eq_ok.mpr ⟨rfl, rfl⟩)]
          cases candidate : manager.candidateConfig with
          | none => exact ⟨.crashed, bind_of_error (attempt_eq_error.mpr ⟨rfl, rfl⟩)⟩
          | some tree =>
              exact absurd ⟨pair.1, pair.2, tree, ready, rollback, candidate⟩ refused

/-- Any other cancellation has the outcome of the routine. A refusal puts the index back. -/
theorem cancel_of_cancellable (cancellable : Cancellable env manager patch jconfig tree) :
    cancelCandidateConfig env manager =
      match fMakeCandidateConfigInternal env manager.site patch jconfig
          (manager.runningDraft tree) with
      | .ok _ draft => .ok ⟨⟩ (manager.withoutCandidate draft)
      | .error .rejected draft =>
        .error .rejected
          { manager.keepEdited draft with candidateReferences := manager.candidateReferences }
      | .error reason draft => .error reason (manager.keepEdited draft) := by
  have dereferenced : deref manager.candidateConfig = .ok tree := by
    rw [cancellable.candidate]
    rfl
  unfold cancelCandidateConfig
  rw [get_bind]
  simp only [cancellable.ready, Bool.not_true, Bool.false_eq_true, if_false]
  rw [bind_of_ok (attempt_eq_ok.mpr ⟨cancellable.rollback, rfl⟩),
    bind_of_ok (attempt_eq_ok.mpr ⟨dereferenced, rfl⟩)]
  cases ran : fMakeCandidateConfigInternal env manager.site patch jconfig
      (manager.runningDraft tree) with
  | ok json_config draft =>
      have edited : onCandidate tree (fMakeCandidateConfigInternal env manager.site patch jconfig)
          manager = .ok json_config (manager.keepEdited draft) :=
        focus_eq_ok.mpr ⟨draft, ran, rfl⟩
      exact (bind_of_ok (compensated_eq_ok.mpr edited)).trans rfl
  | error reason draft =>
      have edited : onCandidate tree (fMakeCandidateConfigInternal env manager.site patch jconfig)
          manager = .error reason (manager.keepEdited draft) :=
        focus_eq_error.mpr ⟨draft, ran, rfl⟩
      cases reason with
      | rejected => exact bind_of_error (compensated_of_caught edited rfl rfl)
      | raised | exited | crashed => exact bind_of_error (compensated_of_uncaught edited rfl)

/-- A call that cancels the candidate: what the routine has computed. -/
structure Cancelling (env : Env) (manager : Manager) where
  patch : Json
  jconfig : Json
  tree : Node
  course : Course env manager.site patch jconfig (manager.runningDraft tree)
  cancellable : Cancellable env manager patch jconfig tree

namespace Cancelling

/-- The manager after its candidate was cancelled. -/
def result (cancelling : Cancelling env manager) : Manager :=
  manager.withoutCandidate cancelling.course.draft

/-- A candidate is cancelled exactly by such a call. -/
theorem cancel_eq_ok_iff {after : Manager} :
    cancelCandidateConfig env manager = .ok ⟨⟩ after ↔
      ∃ cancelling : Cancelling env manager, cancelling.result = after := by
  constructor
  · intro cancelled
    by_cases cancellable : ∃ patch jconfig tree, Cancellable env manager patch jconfig tree
    · obtain ⟨patch, jconfig, tree, cancellable⟩ := cancellable
      rw [cancel_of_cancellable cancellable] at cancelled
      split at cancelled
      · next json_config draft ran =>
          obtain ⟨course, rfl, rfl⟩ := Course.routine_eq_ok_iff.mp ran
          cases cancelled
          exact ⟨⟨patch, jconfig, tree, course, cancellable⟩, rfl⟩
      · cases cancelled
      · cases cancelled
    · obtain ⟨reason, halted⟩ := cancel_of_not_cancellable cancellable
      rw [halted] at cancelled
      cases cancelled
  · rintro ⟨cancelling, rfl⟩
    rw [cancel_of_cancellable cancelling.cancellable,
      Course.routine_eq_ok_iff.mpr ⟨cancelling.course, rfl, rfl⟩]
    rfl

/-- Compute what a call does that cancels the candidate. -/
def find (env : Env) (manager : Manager) : Option (Cancelling env manager) :=
  if ready : manager.isCandidateConfigReady = true then
    match rollback : rollbackPatch env manager, candidate : manager.candidateConfig with
    | .ok (patch, jconfig), some tree =>
      (Course.find env manager.site patch jconfig (manager.runningDraft tree)).map fun course =>
        ⟨patch, jconfig, tree, course, ⟨ready, rollback, candidate⟩⟩
    | _, _ => none
  else none

/-- Only one call cancels the candidate. -/
theorem eq (cancelling other : Cancelling env manager) : cancelling = other := by
  obtain ⟨patch, jconfig, tree, course, cancellable⟩ := cancelling
  obtain ⟨patch', jconfig', tree', course', cancellable'⟩ := other
  have sameTree := cancellable.candidate.symm.trans cancellable'.candidate
  cases sameTree
  have samePatch := cancellable.rollback.symm.trans cancellable'.rollback
  cases samePatch
  have sameCourse := course.eq course'
  cases sameCourse
  rfl

/-- The call is found where there is one. -/
theorem mem_find (cancelling : Cancelling env manager) : cancelling ∈ find env manager := by
  have found : find env manager ≠ none := by
    unfold find
    rw [dif_pos cancelling.cancellable.ready]
    split
    · next patch jconfig tree rollback candidate =>
        have samePatch := rollback.symm.trans cancelling.cancellable.rollback
        cases samePatch
        have sameTree := candidate.symm.trans cancelling.cancellable.candidate
        cases sameTree
        rw [cancelling.course.mem_find]
        exact Option.some_ne_none _
    · next unfinished =>
        exact (unfinished _ _ _ cancelling.cancellable.rollback
          cancelling.cancellable.candidate).elim
  obtain ⟨other, same⟩ := Option.ne_none_iff_exists'.mp found
  rw [eq cancelling other]
  exact same

instance {property : Cancelling env manager → Prop} [DecidablePred property] :
    Decidable (∀ cancelling, property cancelling) :=
  decidable_of_iff (∀ cancelling ∈ find env manager, property cancelling)
    ⟨fun all cancelling => all cancelling cancelling.mem_find, fun all cancelling _ =>
      all cancelling⟩

end Cancelling

end Cancel

section Commitment

/-- What is committed: the document in the file, and the running configuration. -/
def committed (manager : Manager) : Option Json × Option Node × Json :=
  (manager.configFile, manager.runningConfig, manager.runningJson)

theorem keeps_committed_make (patch : Json) : Keeps committed (makeCandidateConfig env patch) := by
  intro manager
  cases made : makeCandidateConfig env patch manager with
  | ok _ next =>
      obtain ⟨root, json_config, draft, reloaded, _, _, _, rfl⟩ := make_eq_ok.mp made
      rfl
  | error reason next =>
      rcases make_eq_error made with rfl | ⟨root, draft, _, rfl, _⟩ <;> rfl

theorem keeps_committed_cancel : Keeps committed (cancelCandidateConfig env) := by
  intro manager
  by_cases cancellable : ∃ patch jconfig tree, Cancellable env manager patch jconfig tree
  · obtain ⟨patch, jconfig, tree, cancellable⟩ := cancellable
    rw [cancel_of_cancellable cancellable]
    cases fMakeCandidateConfigInternal env manager.site patch jconfig
        (manager.runningDraft tree) with
    | ok json_config draft => rfl
    | error reason draft => cases reason <;> rfl
  · obtain ⟨reason, halted⟩ := cancel_of_not_cancellable cancellable
    rw [halted]
    rfl

/-- A call that is not an apply commits nothing. -/
theorem committed_of_step {op : Op} {after : Manager} (step : Step env manager op after)
    (other : ∀ files, op ≠ .applyCandidateConfig files) :
    after.committed = manager.committed := by
  obtain ⟨_, rfl⟩ := step
  cases op with
  | makeCandidateConfig patch => exact keeps_committed_make patch manager
  | applyCandidateConfig files => exact absurd rfl (other files)
  | cancelCandidateConfig => exact keeps_committed_cancel manager

end Commitment

section Calls

variable (env)

/-- The state a list of calls leads to, where the manager goes on after each of them. -/
def afterCalls : List Op → Manager → Option Manager
  | [], manager => some manager
  | op :: rest, manager =>
    if goesOn (run env op manager) then afterCalls rest (final (run env op manager)) else none

/-- The state a list of calls leads to, where each of them is admitted by a test and the
manager goes on after it. -/
def afterAdmitted (admits : Manager → Op → Bool) : List Op → Manager → Option Manager
  | [], manager => some manager
  | op :: rest, manager =>
    if admits manager op && goesOn (run env op manager) then
      afterAdmitted admits rest (final (run env op manager))
    else none

/-- The state a load and a list of calls lead to. -/
def reached (jconfig : Json) (ops : List Op) : Option Manager :=
  match load env jconfig [] with
  | .ok loaded _ => afterCalls env ops loaded
  | .error _ _ => none

variable {env}

/-- A list of calls that are all admitted is a run. -/
theorem run_of_afterCalls {guard : Manager → Op → Prop} {ops : List Op} {first last : Manager}
    (admitted : ∀ op ∈ ops, ∀ manager, guard manager op)
    (reaches : afterCalls env ops first = some last) :
    Relation.ReflTransGen (Guarded (Step env) guard) first last := by
  induction ops generalizing first with
  | nil =>
      cases reaches
      exact Relation.ReflTransGen.refl
  | cons op rest ih =>
      rw [afterCalls] at reaches
      split at reaches
      · next goes =>
          have step : Guarded (Step env) guard first (final (run env op first)) :=
            ⟨op, admitted op List.mem_cons_self first, goes, rfl⟩
          exact Relation.ReflTransGen.head step
            (ih (fun other member => admitted other (List.mem_cons_of_mem _ member)) reaches)
      · cases reaches

theorem run_of_afterAdmitted {guard : Manager → Op → Prop} {admits : Manager → Op → Bool}
    (sound : ∀ manager op, admits manager op = true → guard manager op) {ops : List Op}
    {first last : Manager} (reaches : afterAdmitted env admits ops first = some last) :
    Relation.ReflTransGen (Guarded (Step env) guard) first last := by
  induction ops generalizing first with
  | nil =>
      cases reaches
      exact Relation.ReflTransGen.refl
  | cons op rest ih =>
      rw [afterAdmitted] at reaches
      split at reaches
      · next both =>
          obtain ⟨admitted, goes⟩ := Bool.and_eq_true_iff.mp both
          have step : Guarded (Step env) guard first (final (run env op first)) :=
            ⟨op, sound first op admitted, goes, rfl⟩
          exact Relation.ReflTransGen.head step (ih reaches)
      · cases reaches

theorem reachedBy_of_reached {guard : Manager → Op → Prop} {jconfig : Json} {ops : List Op}
    {last : Manager} (admitted : ∀ op ∈ ops, ∀ manager, guard manager op)
    (reaches : reached env jconfig ops = some last) : ReachedBy env guard last := by
  unfold reached at reaches
  split at reaches
  · next loaded log returned =>
      exact ⟨loaded, ⟨jconfig, log, returned⟩, run_of_afterCalls admitted reaches⟩
  · cases reaches

end Calls

end FlexConfig.Manager
