import FlexConfig.Manager.Acceptance

/-! # What is in force, pending or on disk can be loaded

Whatever is called, and whatever comes of it: the running document and that of a pending candidate
are valid, a tree can be built of them, the nodes of the tree can be ordered, and their references
can be recorded. The configuration file holds the running document, or, where the text of an apply
has not reached it, none at all. A manager that is started again from the file gets as far as the
constraints and the messages of its nodes, with the document of the file as the running one.
-/

namespace FlexConfig

open Procedure

/-- A document that can be loaded: it is valid, and its tree can be built, ordered and indexed. -/
def Reloads (env : Env) (jconfig : Json) : Prop :=
  ∃ reloaded, fReloadNodeConfig env jconfig [] = .ok reloaded

section Reload

variable {env : Env} {jconfig : Json}

theorem reloads_of_reload {index : References} {reloaded : Node × References}
    (reload : fReloadNodeConfig env jconfig index = .ok reloaded) : Reloads env jconfig := by
  obtain ⟨saved, again⟩ := reload_of_other [] reload
  exact ⟨(reloaded.1, saved), again⟩

end Reload

/-- Everything that may become the running configuration can be loaded, and a pending candidate
has its tree and both documents. The file has the running document or none. -/
structure Restartable (env : Env) (manager : Manager) : Prop where
  file : manager.configFile = some manager.runningJson ∨ manager.configFile = none
  running : Reloads env manager.runningJson
  pending : manager.isCandidateConfigReady = true →
    Reloads env manager.candidateJson ∧ manager.candidateJson ≠ .null ∧
      manager.runningJson ≠ .null ∧ manager.candidateConfig.isSome

theorem Restartable.reloads_file {env : Env} {manager : Manager} {jconfig : Json}
    (restartable : Restartable env manager) (holds : manager.configFile = some jconfig) :
    Reloads env jconfig := by
  rcases restartable.file with same | lost
  · cases same.symm.trans holds
    exact restartable.running
  · cases lost.symm.trans holds

/-- The text of every apply reaches the configuration file. -/
def Flushed (_ : Manager) : Manager.Op → Prop
  | .applyCandidateConfig files => files.flushes = true
  | .makeCandidateConfig _ | .cancelCandidateConfig => True

section Invariant

variable {env : Env} {before after : Manager}

theorem restartable_of_make {patch : Json} (restartable : Restartable env before)
    (made : Manager.makeCandidateConfig env patch before = .ok ⟨⟩ after) :
    Restartable env after := by
  obtain ⟨root, json_config, draft, reloaded, admitted, ran, reload, rfl⟩ :=
    Manager.make_eq_ok.mp made
  exact {
    file := restartable.file
    running := restartable.running
    pending := fun _ => ⟨reloads_of_reload reload, routine_ne_null admitted.document ran,
      admitted.document, rfl⟩ }

theorem restartable_of_apply (restartable : Restartable env before) (files : FileOutcome) :
    Restartable env (final (Manager.applyCandidateConfig files before)) := by
  rcases Manager.apply_cases files before with ⟨reason, halted⟩ | ⟨ready, _, applied⟩
  · rw [halted]
    exact restartable
  · have candidate := (restartable.pending ready).1
    have written : (before.applied files).configFile = some before.candidateJson ∨
        (before.applied files).configFile = none := by
      rw [Manager.applied]
      cases files.flushes with
      | true => exact .inl rfl
      | false => exact .inr rfl
    rw [applied]
    exact ⟨written, candidate, fun impossible => by cases impossible⟩

/-- A cancellation that halts may have edited the candidate tree, and nothing else that counts. -/
theorem restartable_of_keepEdited (restartable : Restartable env before) (draft : Draft) :
    Restartable env (before.keepEdited draft) where
  file := restartable.file
  running := restartable.running
  pending := fun ready =>
    have pending := restartable.pending ready
    ⟨pending.1, pending.2.1, pending.2.2.1, rfl⟩

theorem restartable_of_cancel (restartable : Restartable env before) :
    Restartable env (final (Manager.cancelCandidateConfig env before)) := by
  by_cases cancellable : ∃ patch jconfig tree,
      Manager.Cancellable env before patch jconfig tree
  · obtain ⟨patch, jconfig, tree, cancellable⟩ := cancellable
    rw [Manager.cancel_of_cancellable cancellable]
    cases ran : fMakeCandidateConfigInternal env before.site patch jconfig
        (before.runningDraft tree) with
    | ok json_config draft =>
        exact ⟨restartable.file, restartable.running, fun impossible => by cases impossible⟩
    | error reason draft =>
        have kept := restartable_of_keepEdited restartable draft
        cases reason with
        | rejected => exact ⟨kept.file, kept.running, kept.pending⟩
        | raised | exited | crashed => exact kept
  · obtain ⟨reason, halted⟩ := Manager.cancel_of_not_cancellable cancellable
    rw [halted]
    exact restartable

theorem restartable_of_step {op : Manager.Op} (restartable : Restartable env before)
    (step : Manager.Step env before op after) : Restartable env after := by
  obtain ⟨_, rfl⟩ := step
  cases op with
  | makeCandidateConfig patch =>
      change Restartable env (final (Manager.makeCandidateConfig env patch before))
      cases made : Manager.makeCandidateConfig env patch before with
      | ok _ next => exact restartable_of_make restartable made
      | error reason next =>
          rcases Manager.make_eq_error made with rfl | ⟨_, draft, _, rfl, _⟩
          · exact restartable
          · exact ⟨restartable.file, restartable.running, restartable.pending⟩
  | applyCandidateConfig files => exact restartable_of_apply restartable files
  | cancelCandidateConfig => exact restartable_of_cancel restartable

/-- A load that returns has the document and the tree it was given, nothing pending, and one
index twice. -/
theorem Manager.loaded_eq {jconfig : Json} {restarted : Manager} {start log : Log}
    (returned : Manager.load env jconfig start = .ok restarted log) :
    ∃ reloaded, fReloadNodeConfig env jconfig [] = .ok reloaded ∧
      restarted = ⟨some jconfig, some reloaded.1, jconfig, none, .null, false, reloaded.2,
        reloaded.2, log⟩ := by
  obtain ⟨reloaded, _, attempted, loaded⟩ := bind_eq_ok.mp returned
  obtain ⟨_, _, _, loaded⟩ := bind_eq_ok.mp loaded
  rw [get_bind] at loaded
  cases loaded
  exact ⟨reloaded, (attempt_eq_ok.mp attempted).1, rfl⟩

theorem restartable_of_loaded (loaded : Manager.Loaded env after) : Restartable env after := by
  obtain ⟨jconfig, log, loaded⟩ := loaded
  obtain ⟨reloaded, reload, rfl⟩ := Manager.loaded_eq loaded
  have reloads := reloads_of_reload reload
  exact ⟨.inl rfl, reloads, fun impossible => by cases impossible⟩

theorem file_of_step {op : Manager.Op} (holds : before.configFile = some before.runningJson)
    (flushed : Flushed before op) (step : Manager.Step env before op after) :
    after.configFile = some after.runningJson := by
  have written : after.committed = before.committed → after.configFile = some after.runningJson := by
    intro kept
    have file : after.configFile = before.configFile := congrArg Prod.fst kept
    have running : after.runningJson = before.runningJson := congrArg (fun it => it.2.2) kept
    rw [file, running, holds]
  cases op with
  | makeCandidateConfig patch =>
      exact written (Manager.committed_of_step step fun _ => Manager.Op.noConfusion)
  | cancelCandidateConfig =>
      exact written (Manager.committed_of_step step fun _ => Manager.Op.noConfusion)
  | applyCandidateConfig files =>
      obtain ⟨_, rfl⟩ := step
      change (final (Manager.applyCandidateConfig files before)).configFile =
        some (final (Manager.applyCandidateConfig files before)).runningJson
      rcases Manager.apply_cases files before with ⟨reason, halted⟩ | ⟨_, _, applied⟩
      · rw [halted]
        exact holds
      · rw [applied]
        exact if_pos flushed

/-- In every state that calls since a successful load have led to, the running document and that
of a pending candidate can be loaded, and the configuration file has the running document or none;
where the text of every apply has reached the file, it has the running document. -/
theorem Manager.restartable_of_reached {last : Manager} (reached : Manager.Reachable env last) :
    Restartable env last ∧
      (Manager.ReachedBy env Flushed last → last.configFile = some last.runningJson) := by
  constructor
  · obtain ⟨first, loaded, run⟩ := reached
    exact invariant_of_run (Restartable env) (fun _ _ _ restartable _ step =>
      restartable_of_step restartable step) (restartable_of_loaded loaded) run
  · rintro ⟨first, ⟨jconfig, log, loaded⟩, run⟩
    refine invariant_of_run (fun manager => manager.configFile = some manager.runningJson)
      (fun _ _ _ holds flushed step => file_of_step holds flushed step) ?_ run
    obtain ⟨reloaded, _, rfl⟩ := Manager.loaded_eq loaded
    rfl

end Invariant

section Resumption

variable {env : Env} {last : Manager}

theorem coherent_of_started {jconfig : Json} {restarted : Manager} {before after : Log}
    (returned : Manager.load env jconfig before = .ok restarted after) :
    Coherent env restarted := by
  obtain ⟨reloaded, reload, rfl⟩ := Manager.loaded_eq returned
  obtain ⟨_, _, _, _, built, _⟩ := Manager.reload_eq_ok.mp reload
  exact {
    running := ⟨reloaded.1, rfl, built⟩
    file := rfl
    pending := fun impossible => by cases impossible
    idle := fun _ => ⟨rfl, rfl⟩ }

/-- A message at startup stops the load: it cannot be made, or it is the last one that was sent
and was not answered. -/
def StopsAt (env : Env) (config_file : Option Json) (reason : Halt) (after : Log) (xpath : Str) :
    Prop :=
  startupAction env config_file xpath = .error reason ∨
    ∃ message, startupAction env config_file xpath = .ok (some message) ∧
      after.getLast? = some (message, false)

theorem stopsAt_of_postStartup {config_file : Option Json} {acknowledged : Bool}
    {ordered : List Str} {before after : Log} {reason : Halt}
    (halted : postStartup env config_file acknowledged ordered before = .error reason after) :
    ∃ xpath ∈ ordered, StopsAt env config_file reason after xpath := by
  induction ordered generalizing acknowledged before with
  | nil => cases halted
  | cons xpath rest ih =>
      have later : ∀ {known : Bool} {between : Log},
          postStartup env config_file known rest between = .error reason after →
            ∃ other ∈ xpath :: rest, StopsAt env config_file reason after other := by
        intro known between halts
        obtain ⟨other, member, stops⟩ := ih halts
        exact ⟨other, List.mem_cons_of_mem _ member, stops⟩
      rw [postStartup] at halted
      cases encoded : startupAction env config_file xpath with
      | error cause =>
          rw [encoded, bind_of_error (attempt_eq_error.mpr ⟨rfl, rfl⟩)] at halted
          cases halted
          exact ⟨xpath, List.mem_cons_self, .inl encoded⟩
      | ok message =>
          rw [encoded, bind_of_ok (attempt_eq_ok.mpr ⟨rfl, rfl⟩)] at halted
          cases message with
          | none => exact later halted
          | some message =>
              dsimp only at halted
              rw [post_bind] at halted
              cases answers : env.answers before.length with
              | true =>
                  rw [answers, if_pos rfl] at halted
                  exact later halted
              | false =>
                  -- the answers before decide how the load halts, and not whether it does
                  rw [answers, if_neg Bool.false_ne_true] at halted
                  cases acknowledged <;> cases halted <;>
                    exact ⟨xpath, List.mem_cons_self, .inr ⟨message, encoded, List.getLast?_concat⟩⟩

/-- After undisturbed calls, a manager that is started again from the configuration file has
the running document and the running tree it had, and no candidate; a load stops only while the
constraints of the running configuration are checked, or at the message of one of its nodes. -/
theorem Manager.resumes_of_reached (reached : Manager.ReachedBy env (Undisturbed env) last) :
    ∃ jconfig reloaded ordered, last.configFile = some jconfig ∧
      last.runningConfig = some reloaded.1 ∧
      fReloadNodeConfig env jconfig [] = .ok reloaded ∧
      NodeDependencyManager.resolve env reloaded.1 = .ok ordered ∧
      ∀ log,
        (∀ restarted after, Manager.load env jconfig log = .ok restarted after →
          restarted.runningJson = last.runningJson ∧
          restarted.runningConfig = last.runningConfig ∧
          restarted.isCandidateConfigReady = false ∧ Coherent env restarted) ∧
        (∀ reason after, Manager.load env jconfig log = .error reason after →
          checkStartup env reloaded.1 ordered = .error reason ∧ after = log ∨
          checkStartup env reloaded.1 ordered = .ok ⟨⟩ ∧
            postStartup env (some jconfig) false ordered log = .error reason after ∧
            ∃ xpath ∈ ordered, StopsAt env (some jconfig) reason after xpath) := by
  obtain ⟨first, loaded, run⟩ := reached
  have coherent : Coherent env last :=
    invariant_of_run (Coherent env) (fun _ _ _ coherent undisturbed step =>
      coherent_of_step coherent undisturbed step) (coherent_of_loaded loaded) run
  have restartable : Restartable env last :=
    invariant_of_run (Restartable env) (fun _ _ _ restartable _ step =>
      restartable_of_step restartable step) (restartable_of_loaded loaded) run
  obtain ⟨root, running, built⟩ := coherent.running
  obtain ⟨reloaded, reload⟩ := restartable.running
  obtain ⟨_, ordered, _, _, same, resolved, _⟩ := Manager.reload_eq_ok.mp reload
  rw [built] at same
  cases same
  refine ⟨last.runningJson, reloaded, ordered, coherent.file, running, reload, resolved,
    fun log => ⟨fun restarted after returned => ?_, fun reason after halted => ?_⟩⟩
  · obtain ⟨again, reload', rfl⟩ := Manager.loaded_eq returned
    rw [reload] at reload'
    cases reload'
    exact ⟨rfl, running.symm, rfl, coherent_of_started returned⟩
  · rw [Manager.load, bind_of_ok (attempt_eq_ok.mpr ⟨reload, rfl⟩)] at halted
    rcases bind_eq_error.mp halted with halted | ⟨_, _, _, impossible⟩
    · rw [fPerformAction, bind_of_ok (attempt_eq_ok.mpr ⟨resolved, rfl⟩)] at halted
      rcases bind_eq_error.mp halted with refused | ⟨_, _, checked, unanswered⟩
      · exact .inl (attempt_eq_error.mp refused)
      · obtain ⟨passes, rfl⟩ := attempt_eq_ok.mp checked
        exact .inr ⟨passes, unanswered, stopsAt_of_postStartup unanswered⟩
    · rw [get_bind] at impossible
      cases impossible

end Resumption

end FlexConfig

namespace FlexConfig.Sample

/-- A candidate that is pending while the file still holds what was loaded. -/
theorem restartable_of_reached_pending :
    ∃ last ∈ Manager.reached twoLeaves (twoLeavesConfig "old")
        [.makeCandidateConfig (replaceB "new")],
      last.isCandidateConfigReady = true ∧ Restartable twoLeaves last ∧
        last.configFile = some last.runningJson := by
  have pending : ∃ last ∈ Manager.reached twoLeaves (twoLeavesConfig "old")
      [.makeCandidateConfig (replaceB "new")], last.isCandidateConfigReady = true := by
    decide +kernel
  obtain ⟨last, reaches, ready⟩ := pending
  obtain ⟨restartable, flushed⟩ := Manager.restartable_of_reached
    (Manager.reachedBy_of_reached (fun _ _ _ => trivial) reaches)
  refine ⟨last, reaches, ready, restartable,
    flushed (Manager.reachedBy_of_reached (fun op member manager => ?_) reaches)⟩
  cases List.mem_singleton.mp member
  exact trivial

/-- A manager started again after an apply comes up with what was applied. -/
theorem resumes_of_reached_applied :
    ∃ last ∈ Manager.reached twoLeaves (twoLeavesConfig "old")
        [.makeCandidateConfig (replaceB "new"), .applyCandidateConfig .success],
      last.configFile = some (twoLeavesConfig "new") ∧
      ∀ restarted after, Manager.load twoLeaves (twoLeavesConfig "new") [] = .ok restarted after →
        restarted.runningJson = last.runningJson ∧
          restarted.runningConfig = last.runningConfig := by
  have applied : ∃ last ∈ Manager.reached twoLeaves (twoLeavesConfig "old")
      [.makeCandidateConfig (replaceB "new"), .applyCandidateConfig .success],
      last.configFile = some (twoLeavesConfig "new") := by
    decide +kernel
  obtain ⟨last, reaches, holds⟩ := applied
  have reached : Manager.ReachedBy twoLeaves (Undisturbed twoLeaves) last := by
    refine Manager.reachedBy_of_reached ?_ reaches
    intro op member manager
    rcases List.mem_pair.mp member with rfl | rfl
    · exact trivial
    · rfl
  refine ⟨last, reaches, holds, fun restarted after returned => ?_⟩
  obtain ⟨jconfig, reloaded, ordered, file, _, _, _, resumes⟩ :=
    Manager.resumes_of_reached reached
  rw [holds] at file
  cases file
  obtain ⟨json, tree, _⟩ := (resumes []).1 restarted after returned
  exact ⟨json, tree⟩

end FlexConfig.Sample
