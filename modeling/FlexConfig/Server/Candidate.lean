import FlexConfig.Manager.Operations
import FlexConfig.Server.Threads

/-! # What the requests do to the candidate

Of the requests to the manager an update alone makes a candidate pending, and one that
fails leaves the candidate there was. A candidate that is pending stays so, unless it is
applied or cancelled. All other requests leave the manager alone.
-/

namespace FlexConfig

open Procedure HTTP

namespace Manager

variable {env : Env}

/-- A candidate is pending. -/
def Pending (manager : Manager) : Prop := manager.isCandidateConfigReady = true

instance (manager : Manager) : Decidable manager.Pending := inferInstanceAs (Decidable (_ = _))

/-- No candidate is pending after a load. -/
theorem not_pending_of_loaded {manager : Manager} (loaded : Manager.Loaded env manager) :
    ¬ manager.Pending := by
  obtain ⟨jconfig, log, loaded⟩ := loaded
  obtain ⟨reloaded, _, _, loaded⟩ := bind_eq_ok.mp loaded
  obtain ⟨_, _, _, loaded⟩ := bind_eq_ok.mp loaded
  rw [get_bind] at loaded
  cases loaded
  exact Bool.false_ne_true

/-- Making a candidate leaves it pending, or fails and leaves the pending one. -/
theorem make_pending (env : Env) (patch : Json) (manager : Manager) :
    (∃ next, makeCandidateConfig env patch manager = .ok ⟨⟩ next ∧ next.Pending) ∨
      ∃ reason next, makeCandidateConfig env patch manager = .error reason next ∧
        (next.Pending ↔ manager.Pending) := by
  by_cases admitted : ∃ root, Admitted env manager patch root
  · obtain ⟨root, admitted⟩ := admitted
    rw [make_of_admitted admitted]
    cases fMakeCandidateConfigInternal env manager.site patch manager.runningJson
        (manager.runningDraft root) with
    | error reason draft => exact Or.inr ⟨reason, _, rfl, Iff.rfl⟩
    | ok json_config draft =>
        dsimp only
        cases fReloadNodeConfig env json_config draft.references with
        | error reason => exact Or.inr ⟨reason, _, rfl, Iff.rfl⟩
        | ok reloaded => exact Or.inl ⟨_, rfl, rfl⟩
  · obtain ⟨reason, refused⟩ := make_of_not_admitted admitted
    exact Or.inr ⟨reason, manager, refused, Iff.rfl⟩

/-- Applying leaves no candidate pending, or fails and leaves it. -/
theorem apply_pending (files : FileOutcome) (manager : Manager) :
    (∃ next, applyCandidateConfig files manager = .ok ⟨⟩ next ∧ ¬ next.Pending) ∨
      ∃ reason next, applyCandidateConfig files manager = .error reason next ∧
        (next.Pending ↔ manager.Pending) := by
  rcases apply_cases files manager with ⟨reason, refused⟩ | ⟨_, _, applied⟩
  · exact Or.inr ⟨reason, manager, refused, Iff.rfl⟩
  · exact Or.inl ⟨_, applied, Bool.false_ne_true⟩

/-- Cancelling leaves no candidate pending, or fails and leaves it. -/
theorem cancel_pending (manager : Manager) :
    (∃ next, cancelCandidateConfig env manager = .ok ⟨⟩ next ∧ ¬ next.Pending) ∨
      ∃ reason next, cancelCandidateConfig env manager = .error reason next ∧
        (next.Pending ↔ manager.Pending) := by
  by_cases cancellable : ∃ patch jconfig tree, Cancellable env manager patch jconfig tree
  · obtain ⟨patch, jconfig, tree, cancellable⟩ := cancellable
    rw [cancel_of_cancellable cancellable]
    cases fMakeCandidateConfigInternal env manager.site patch jconfig
        (manager.runningDraft tree) with
    | ok json_config draft => exact Or.inl ⟨_, rfl, Bool.false_ne_true⟩
    | error reason draft =>
        cases reason with
        | rejected | raised | exited | crashed => exact Or.inr ⟨_, _, rfl, Iff.rfl⟩
  · obtain ⟨reason, refused⟩ := cancel_of_not_cancellable cancellable
    exact Or.inr ⟨reason, manager, refused, Iff.rfl⟩

end Manager

section Requests

variable {host : Host} {manager : Manager}

theorem answered_of_ok {body : Managing PUnit} {next : Manager} (ran : body manager = .ok ⟨⟩ next) :
    answered body manager = .ok true next := by
  rw [answered, ran]

/-- A call that halts either answers `false` or raises. -/
theorem answered_of_error {body : Managing PUnit} {reason : Halt} {next : Manager}
    (ran : body manager = .error reason next) :
    answered body manager = .ok false next ∨ answered body manager = .error reason next := by
  rw [answered, ran]
  cases reason with
  | rejected => exact Or.inl rfl
  | raised | exited | crashed => exact Or.inr rfl

theorem onPath_self {path data_request return_data : Str}
    {handler : (data_request return_data : Str) → Managing (StatusCode × Str)} :
    onPath path handler path data_request return_data = handler data_request return_data :=
  if_neg fun differs => differs rfl

theorem onPath_other {expected path data_request return_data : Str} (differs : path ≠ expected)
    {handler : (data_request return_data : Str) → Managing (StatusCode × Str)} :
    onPath expected handler path data_request return_data =
      pure (.INTERNAL_SUCCESS, return_data) := if_pos differs

section Callbacks

variable {path request_data return_data : Str} {cb : RequestCallback} {rest : List RequestCallback}
  {status_code : StatusCode}

theorem processCallbacks_of_ok {result : StatusCode × Str} {next : Manager}
    (handled : cb path request_data return_data manager = .ok result next)
    (ends : result.1 ≠ .INTERNAL_SUCCESS) :
    processCallbacks path request_data (cb :: rest) status_code return_data manager =
      .ok result next := by
  unfold processCallbacks
  rw [bind_of_ok handled]
  exact congrFun (if_neg ends) next

theorem processCallbacks_of_error {reason : Halt} {next : Manager}
    (halted : cb path request_data return_data manager = .error reason next) :
    processCallbacks path request_data (cb :: rest) status_code return_data manager =
      .error reason next := by
  unfold processCallbacks
  rw [bind_of_error halted]

theorem processCallbacks_of_skipped
    (skipped : cb path request_data return_data = pure (.INTERNAL_SUCCESS, return_data)) :
    processCallbacks path request_data (cb :: rest) status_code return_data =
      processCallbacks path request_data rest .INTERNAL_SUCCESS return_data := by
  rw [processCallbacks, skipped, pure_bind]
  exact if_pos rfl

end Callbacks

/-- The handler of an update makes a candidate, is refused or raises. -/
theorem config_running_update_cases (host : Host) (request_data : Str) (manager : Manager) :
    (∃ next, config_running_update host URIRequestPath.RUNNING_UPDATE request_data [] manager =
        .ok (.OK, []) next ∧ next.Pending) ∨
      (∃ next, config_running_update host URIRequestPath.RUNNING_UPDATE request_data [] manager =
        .ok (.INTERNAL_SERVER_ERROR, []) next ∧ (next.Pending ↔ manager.Pending)) ∨
      ∃ reason next, config_running_update host URIRequestPath.RUNNING_UPDATE request_data []
        manager = .error reason next ∧ (next.Pending ↔ manager.Pending) := by
  unfold config_running_update
  rw [onPath_self]
  cases parsed : host.parseJson request_data with
  | error reason =>
      exact Or.inr (Or.inr ⟨reason, manager, bind_of_error (attempt_eq_error.mpr ⟨rfl, rfl⟩),
        Iff.rfl⟩)
  | ok patch =>
      have known : attempt (.ok patch : Attempt Json) manager = .ok patch manager := rfl
      rw [bind_of_ok known]
      rcases Manager.make_pending host.env patch manager with
        ⟨next, made, pending⟩ | ⟨reason, next, failed, same⟩
      · rw [bind_of_ok (answered_of_ok made)]
        exact Or.inl ⟨next, rfl, pending⟩
      · rcases answered_of_error failed with answer | raised
        · rw [bind_of_ok answer]
          exact Or.inr (Or.inl ⟨next, rfl, same⟩)
        · rw [bind_of_error raised]
          exact Or.inr (Or.inr ⟨reason, next, rfl, same⟩)

/-- An update makes a candidate, is refused or raises. -/
theorem processRequest_update (host : Host) (files : FileOutcome) (request_data : Str)
    (manager : Manager) :
    (∃ next, processRequest host files .POST URIRequestPath.RUNNING_UPDATE request_data manager =
        .ok (.OK, []) next ∧ next.Pending) ∨
      (∃ next, processRequest host files .POST URIRequestPath.RUNNING_UPDATE request_data manager =
        .ok (.INTERNAL_SERVER_ERROR, []) next ∧ (next.Pending ↔ manager.Pending)) ∨
      ∃ reason next, processRequest host files .POST URIRequestPath.RUNNING_UPDATE request_data
        manager = .error reason next ∧ (next.Pending ↔ manager.Pending) := by
  have handled : processRequest host files .POST URIRequestPath.RUNNING_UPDATE request_data =
      processCallbacks URIRequestPath.RUNNING_UPDATE request_data [config_running_update host]
        .INTERNAL_SUCCESS [] := processCallbacks_of_skipped (onPath_other (by decide))
  rw [handled]
  rcases config_running_update_cases host request_data manager with
    ⟨next, ran, pending⟩ | ⟨next, ran, same⟩ | ⟨reason, next, ran, same⟩
  · exact Or.inl ⟨next, processCallbacks_of_ok ran (by decide), pending⟩
  · exact Or.inr (Or.inl ⟨next, processCallbacks_of_ok ran (by decide), same⟩)
  · exact Or.inr (Or.inr ⟨reason, next, processCallbacks_of_error ran, same⟩)

/-- An update is answered with success. -/
def Succeeds (host : Host) (request_data : Str) (manager : Manager) : Prop :=
  ∃ data next, processRequest host .success .POST URIRequestPath.RUNNING_UPDATE request_data
    manager = .ok (.OK, data) next

instance (request_data : Str) : Decidable (Succeeds host request_data manager) :=
  match ran : processRequest host .success .POST URIRequestPath.RUNNING_UPDATE request_data
      manager with
  | .ok (status, data) next =>
    if same : status = .OK then isTrue ⟨data, next, same ▸ ran⟩
    else isFalse fun ⟨_, _, succeeds⟩ => by
      cases ran.symm.trans succeeds
      exact same rfl
  | .error _ _ => isFalse fun ⟨_, _, succeeds⟩ => by cases ran.symm.trans succeeds

/-- After an update a candidate is pending that it has made, or that was pending before. -/
theorem pending_after_update (host : Host) (request_data : Str) (manager : Manager) :
    (final (processRequest host .success .POST URIRequestPath.RUNNING_UPDATE request_data
      manager)).Pending ↔ manager.Pending ∨ Succeeds host request_data manager := by
  unfold Succeeds
  rcases processRequest_update host .success request_data manager with
    ⟨next, ran, pending⟩ | ⟨next, ran, same⟩ | ⟨reason, next, ran, same⟩
  · rw [ran, final_ok]
    exact iff_of_true pending (Or.inr ⟨[], next, rfl⟩)
  · rw [ran, final_ok]
    refine same.trans (or_iff_left fun ⟨_, _, succeeds⟩ => ?_).symm
    cases succeeds
  · rw [ran, final_error]
    refine same.trans (or_iff_left fun ⟨_, _, succeeds⟩ => ?_).symm
    cases succeeds

/-- What a request that ends the confirmation asks the manager for. -/
def conclusion (host : Host) (files : FileOutcome) : Method → Option (Managing PUnit)
  | .PUT => some (Manager.applyCandidateConfig files)
  | .DEL => some (Manager.cancelCandidateConfig host.env)
  | .GET | .POST => none

/-- A request that ends the confirmation is answered with `true`. -/
def Concludes (host : Host) (files : FileOutcome) (method : Method) (manager : Manager) : Prop :=
  ∃ body ∈ conclusion host files method, ∃ next, body manager = .ok ⟨⟩ next

instance (files : FileOutcome) (method : Method) :
    Decidable (Concludes host files method manager) :=
  decidable_of_iff
    (∃ body ∈ conclusion host files method, (returned (body manager)).isSome = true) <| by
    refine exists_congr fun body => and_congr_right' ?_
    cases body manager with
    | ok value next => exact iff_of_true rfl ⟨next, rfl⟩
    | error reason next =>
        refine iff_of_false Bool.false_ne_true fun ⟨_, impossible⟩ => ?_
        cases impossible

theorem conclusion_pending {files : FileOutcome} {method : Method} {body : Managing PUnit}
    (asked : body ∈ conclusion host files method) :
    (∃ next, body manager = .ok ⟨⟩ next ∧ ¬ next.Pending) ∨
      ∃ reason next, body manager = .error reason next ∧ (next.Pending ↔ manager.Pending) := by
  cases method with
  | GET | POST => cases asked
  | PUT =>
      cases asked
      exact Manager.apply_pending files manager
  | DEL =>
      cases asked
      exact Manager.cancel_pending manager

theorem processRequest_conclusion {files : FileOutcome} {method : Method} {body : Managing PUnit}
    (asked : body ∈ conclusion host files method) (request_data : Str) :
    processRequest host files method URIRequestPath.CANDIDATE request_data =
      processCallbacks URIRequestPath.CANDIDATE request_data
        [onPath URIRequestPath.CANDIDATE fun _ _ => do
          let answer ← answered body
          return (.OK, assignedBool answer)] .INTERNAL_SERVER_ERROR [] := by
  cases method with
  | GET | POST => cases asked
  | PUT | DEL =>
      cases asked
      rfl

/-- After a request that ends the confirmation the candidate is pending that was, unless the
request was answered with `true`. -/
theorem pending_after_conclude {method : Method} {files : FileOutcome}
    (asks : (conclusion host files method).isSome = true) (request_data : Str)
    (manager : Manager) :
    (final (processRequest host files method URIRequestPath.CANDIDATE request_data
      manager)).Pending ↔ manager.Pending ∧ ¬ Concludes host files method manager := by
  obtain ⟨body, asked⟩ := Option.isSome_iff_exists.mp asks
  rw [processRequest_conclusion asked]
  have handles : ∀ {answer next}, answered body manager = .ok answer next →
      (onPath URIRequestPath.CANDIDATE fun _ _ => do
        let answer ← answered body
        return (.OK, assignedBool answer)) URIRequestPath.CANDIDATE request_data [] manager =
          .ok (.OK, assignedBool answer) next := by
    intro answer next ran
    rw [onPath_self, bind_of_ok ran]
    rfl
  rcases conclusion_pending asked with
    ⟨next, ran, none⟩ | ⟨reason, next, ran, same⟩
  · rw [processCallbacks_of_ok (handles (answered_of_ok ran)) (by decide), final_ok]
    exact iff_of_false none fun both => both.2 ⟨body, asked, next, ran⟩
  · have failed : ¬ Concludes host files method manager := by
      intro ⟨other, otherAsked, last, returned⟩
      cases asked.symm.trans otherAsked
      cases ran.symm.trans returned
    rcases answered_of_error ran with answer | raised
    · rw [processCallbacks_of_ok (handles answer) (by decide), final_ok]
      exact same.trans (and_iff_left failed).symm
    · have halts : (onPath URIRequestPath.CANDIDATE fun _ _ => do
          let answer ← answered body
          return (.OK, assignedBool answer)) URIRequestPath.CANDIDATE request_data [] manager =
            .error reason next := by
        rw [onPath_self, bind_of_error raised]
      rw [processCallbacks_of_error halts, final_error]
      exact same.trans (and_iff_left failed).symm

section Readers

theorem keeps_onPath {expected path data_request return_data : Str}
    {handler : (data_request return_data : Str) → Managing (StatusCode × Str)}
    (keeps : Keeps id (handler data_request return_data)) :
    Keeps id (onPath expected handler path data_request return_data) := by
  unfold onPath
  split
  · exact keeps_pure _
  · exact keeps

theorem keeps_processCallbacks {path request_data return_data : Str} {status_code : StatusCode}
    {callbacks : List RequestCallback}
    (each : ∀ cb ∈ callbacks, ∀ data, Keeps id (cb path request_data data)) :
    Keeps id (processCallbacks path request_data callbacks status_code return_data) := by
  induction callbacks generalizing status_code return_data with
  | nil => exact keeps_pure _
  | cons cb rest ih =>
      refine keeps_bind (each cb List.mem_cons_self _) fun result => ?_
      dsimp only
      split
      · exact ih fun other member => each other (List.mem_cons_of_mem _ member)
      · exact keeps_pure _

/-- Reading a configuration leaves the manager alone. -/
theorem keeps_processRequest_get (host : Host) (files : FileOutcome) (path request_data : Str) :
    Keeps id (processRequest host files .GET path request_data) := by
  have reads : ∀ stored : Manager → Json, Keeps id (do
      let manager ← get
      let jconfig ← attempt (storedJson (stored manager))
      return (StatusCode.OK, host.dump jconfig) : Managing (StatusCode × Str)) := by
    intro stored
    refine keeps_bind keeps_get fun manager => keeps_bind (keeps_attempt _) fun jconfig => ?_
    exact keeps_pure _
  refine keeps_processCallbacks fun cb member data => ?_
  rcases List.mem_pair.mp member with rfl | rfl
  · exact keeps_onPath (reads Manager.candidateJson)
  · exact keeps_onPath (reads Manager.runningJson)

theorem keeps_getConfigDiff (host : Host) (patch : Str) :
    Keeps id (Manager.getConfigDiff host patch) := by
  refine keeps_bind keeps_get fun manager => keeps_bind (keeps_attempt _) fun jschema =>
    keeps_bind (keeps_attempt _) fun new_jconfig => ?_
  split
  · refine keeps_bind (keeps_attempt _) fun running_jconfig => keeps_bind (keeps_attempt _) fun _ => ?_
    exact keeps_pure _
  · exact keeps_pure _

/-- So does computing a difference. -/
theorem keeps_processRequest_diff (host : Host) (files : FileOutcome) (request_data : Str) :
    Keeps id (processRequest host files .POST URIRequestPath.RUNNING_DIFF request_data) := by
  refine keeps_processCallbacks fun cb member data => ?_
  rcases List.mem_pair.mp member with rfl | rfl
  · exact keeps_onPath (keeps_bind (keeps_getConfigDiff host _) fun diff => keeps_pure _)
  · have skipped : config_running_update host URIRequestPath.RUNNING_DIFF request_data data =
        pure (.INTERNAL_SUCCESS, data) := onPath_other (by decide)
    rw [skipped]
    exact keeps_pure _

end Readers

end Requests

end FlexConfig
