import FlexConfig.Foundation.Discipline
import FlexConfig.Server.Calls

/-! # Who may change the configuration

Whatever the threads of the server do in between, a request changes the manager only after it has
passed, on its own thread, the check of its token, and the one by which its session is the active
one. Only the checking thread withdraws a candidate without a request. The session that is active
gives up its place by a request of its own, by its expiry or by its timer, and no other session
takes the place directly.
-/

namespace FlexConfig.Server

open Procedure HTTP Concurrent SessionManager

deriving instance DecidableEq for HTTP.Request

/-- How far a thread has come with the token of a request. -/
inductive Stage where
  | unknown
  | checked (req : Request)
  | active (req : Request)
  deriving DecidableEq

/-- The stage after an answer: a token is found leased, and its session becomes the active one or
is found to be. -/
def Stage.next (stage : Stage) : (op : Op) → op.Answer → Stage
  | .checkSessionToken req, verdict => if verdict.accepted then .checked req else .unknown
  | .activateSessionToken req, verdict =>
    if verdict.accepted ∧ stage = .checked req then .active req else .unknown
  | .checkActiveSessionToken req, verdict => if verdict.accepted then .active req else .unknown
  | _, _ => stage

section Next

variable (stage : Stage) (req : Request) (verdict : Verdict)

theorem Stage.next_checkSessionToken : stage.next (.checkSessionToken req) verdict =
    if verdict.accepted then .checked req else .unknown := rfl

theorem Stage.next_activateSessionToken : stage.next (.activateSessionToken req) verdict =
    if verdict.accepted ∧ stage = .checked req then .active req else .unknown := rfl

theorem Stage.next_checkActiveSessionToken : stage.next (.checkActiveSessionToken req) verdict =
    if verdict.accepted then .active req else .unknown := rfl

end Next

/-- A thread, and the stage of the request it serves. -/
structure Passage where
  worker : Worker
  stage : Stage

/-- The requests that only read. -/
def ReadsOnly (method : Method) (path : Str) : Prop :=
  method = .GET ∨ method = .POST ∧ path = URIRequestPath.RUNNING_DIFF

/-- What a thread may call at a stage. -/
def Passage.allows (passage : Passage) : Op → Prop
  | .activateSessionToken req => passage.stage = .checked req
  | .releaseSessionToken req => passage.stage = .checked req
  | .processRequest _ method path request_data => ReadsOnly method path ∨
      ∃ req, passage.stage = .active req ∧ request_data = req.body
  | .fireTimer _ => passage.worker = .checking
  | .eraseTimer _ => passage.worker = .checking
  | .eraseSessionToken _ => passage.worker = .checking
  | _ => True

/-- Requests pass the checks before they do anything. -/
def admission : Discipline Op Op.Answer Passage where
  record := fun passage op answer => { passage with stage := passage.stage.next op answer }
  allowed := Passage.allows
  possible := fun _ _ => True

/-- The passage of a thread that begins. -/
def begins (worker : Worker) : Passage := ⟨worker, .unknown⟩

section Obey

variable {passage : Passage} {req : Request}

/-- A call that any thread may make and that leaves the stage. -/
theorem obeys_ask {op : Op} {ends : Passage → op.Answer → Prop} (allowed : passage.allows op)
    (after : ∀ answer, ends { passage with stage := passage.stage.next op answer } answer) :
    (ask op).Obeys admission passage ends :=
  Routine.obeys_perform allowed fun answer _ => after answer

theorem obeys_RemoveSessionToken {ends : Passage → Verdict → Prop}
    (removed : ∀ verdict, ends { passage with stage := .checked req } verdict)
    (refused : ∀ verdict : Verdict, ¬ verdict.accepted →
      ends { passage with stage := .unknown } verdict) :
    (RemoveSessionToken req).Obeys admission passage ends := by
  refine Routine.Obeys.bind (obeys_ask trivial fun verdict => ?_)
  by_cases accepted : verdict.accepted
  · simp only [Stage.next, accepted, if_true]
    exact obeys_ask rfl fun answer => removed answer
  · simp only [Stage.next, accepted]
    exact refused verdict accepted

theorem obeys_SetActiveSessionToken {ends : Passage → Verdict → Prop}
    (activated : ∀ verdict : Verdict, verdict.accepted →
      ends { passage with stage := .active req } verdict)
    (refused : ∀ verdict : Verdict, ¬ verdict.accepted →
      ends { passage with stage := .unknown } verdict) :
    (SetActiveSessionToken req).Obeys admission passage ends := by
  refine Routine.Obeys.bind (obeys_ask trivial fun verdict => ?_)
  by_cases accepted : verdict.accepted
  · simp only [Stage.next, accepted, if_true]
    refine obeys_ask rfl fun answer => ?_
    by_cases activates : answer.accepted
    · simp only [Stage.next, activates, if_true, and_self]
      exact activated answer activates
    · simp only [Stage.next, activates]
      exact refused answer activates
  · simp only [Stage.next, accepted]
    exact refused verdict accepted

theorem obeys_CancelSessionTokenTimerOnce :
    (CancelSessionTokenTimerOnce req).Obeys admission passage fun last _ => last = passage := by
  refine Routine.Obeys.bind (obeys_ask trivial fun found => ?_)
  split
  · rfl
  · exact obeys_ask trivial fun _ => rfl

theorem obeys_SetSessionTokenTimerOnce {callback : SessionTokenTimerCB} {timeout_sec : Int} :
    (SetSessionTokenTimerOnce req callback timeout_sec).Obeys admission passage
      fun last _ => last = passage := by
  refine Routine.Obeys.bind (obeys_ask trivial fun found => ?_)
  split
  · rfl
  · exact Routine.Obeys.bind (obeys_ask trivial fun now => obeys_ask trivial fun _ => rfl)

theorem obeys_respond {files : FileOutcome} {method : Method} {path : Str}
    (allowed : ReadsOnly method path ∨ passage.stage = .active req) :
    (respond files method path req).Obeys admission passage fun last _ => last = passage := by
  refine Routine.Obeys.bind (obeys_ask ?_ fun result => rfl)
  exact allowed.imp_right fun active => ⟨req, active, rfl⟩

theorem obeys_concludeCandidate {files : FileOutcome} {method : Method} :
    (concludeCandidate files method req).Obeys admission passage fun _ _ => True := by
  refine Routine.Obeys.bind (obeys_ask trivial fun verdict => ?_)
  by_cases accepted : verdict.accepted
  · simp only [Stage.next, accepted, if_true]
    refine Routine.Obeys.bind (obeys_CancelSessionTokenTimerOnce.imp fun last _ same => ?_)
    rw [same]
    exact (obeys_respond (.inr rfl)).imp fun _ _ _ => trivial
  · simp only [accepted]
    exact trivial

/-- The handlers obey. -/
theorem obeys_handle (endpoint : Endpoint) :
    (handle req endpoint).Obeys admission passage fun _ _ => True := by
  cases endpoint with
  | postSessionToken => exact Routine.Obeys.bind (obeys_ask trivial fun _ => trivial)
  | deleteSessionToken =>
      exact Routine.Obeys.bind (obeys_RemoveSessionToken (fun _ => trivial) fun _ _ => trivial)
  | getRunning =>
      refine Routine.Obeys.bind (obeys_ask (.inl (.inl rfl)) fun result => ?_)
      split <;> exact trivial
  | postRunningUpdate =>
      refine Routine.Obeys.bind (obeys_SetActiveSessionToken (fun verdict accepted => ?_)
        fun verdict refused => ?_)
      · simp only [accepted, if_true]
        refine Routine.Obeys.bind (obeys_CancelSessionTokenTimerOnce.imp fun last _ same => ?_)
        rw [same]
        refine Routine.Obeys.bind ((obeys_respond (.inr rfl)).imp fun last _ same => ?_)
        exact Routine.Obeys.bind (obeys_SetSessionTokenTimerOnce.imp fun _ _ _ => trivial)
      · simp only [refused]
        exact trivial
  | postRunningDiff => exact (obeys_respond (.inl (.inr ⟨rfl, rfl⟩))).imp fun _ _ _ => trivial
  | getCandidate =>
      refine Routine.Obeys.bind (obeys_ask trivial fun verdict => ?_)
      split
      · exact (obeys_respond (.inl (.inl rfl))).imp fun _ _ _ => trivial
      · exact trivial
  | putCandidate files => exact obeys_concludeCandidate
  | deleteCandidate => exact obeys_concludeCandidate

/-- So does the checking thread. -/
theorem obeys_checkExpiration (checks : passage.worker = .checking) :
    checkExpiration.Obeys admission passage fun _ _ => True := by
  have invariant : ∀ {body : Str → Task PUnit}, (∀ {item : Str} {before : Passage},
      before.worker = .checking →
        (body item).Obeys admission before fun last _ => last.worker = .checking) →
      ∀ {items : List Str} {before : Passage}, before.worker = .checking →
        (Routine.forEach body items).Obeys admission before fun last _ =>
          last.worker = .checking := fun each =>
    Routine.Obeys.forEach (fun (_ : List Str) (last : Passage) => last.worker = .checking)
      fun checks => each checks
  refine Routine.Obeys.bind (obeys_ask trivial fun now => ?_)
  refine Routine.Obeys.bind (obeys_ask trivial fun expired => ?_)
  refine Routine.Obeys.bind ((invariant ?_ checks).imp fun _ _ checks => ?_)
  · intro session_token before checks
    refine Routine.Obeys.bind (Routine.Obeys.bind (Routine.Obeys.bind ?_))
    exact obeys_RemoveSessionToken (fun _ => obeys_ask checks fun _ => checks)
      fun _ _ => obeys_ask checks fun _ => checks
  refine Routine.Obeys.bind (obeys_ask trivial fun timers => ?_)
  have erases : ∀ {session_token : Str} {before : Passage}, before.worker = .checking →
      (ask (.eraseTimer session_token)).Obeys admission before fun last _ =>
        last.worker = .checking := fun checks => Routine.obeys_perform checks fun _ _ => checks
  have fires : ∀ {session_token : Str} {before : Passage}, before.worker = .checking →
      (ask (.fireTimer session_token)).Obeys admission before fun last _ =>
        last.worker = .checking := fun checks => Routine.obeys_perform checks fun _ _ => checks
  refine Routine.Obeys.bind ((invariant erases checks).imp fun _ _ checks => ?_)
  exact (invariant fires checks).imp fun _ _ _ => trivial

theorem obeys_of_mayStart {worker : Worker} {task : Task PUnit} (may : MayStart worker task) :
    task.Obeys admission (begins worker) fun _ _ => True := by
  cases worker with
  | checking =>
      cases may
      exact obeys_checkExpiration rfl
  | connection number =>
      obtain ⟨req, endpoint, rfl⟩ := may
      exact Routine.Obeys.bind ((obeys_handle endpoint).imp fun _ _ _ => trivial)
  | clock =>
      obtain ⟨duration, rfl⟩ := may
      exact obeys_ask trivial fun _ => trivial

end Obey

section Steps

variable {host : Host} {before after : Threads} {event : Happening} {server : Server} {op : Op}

/-- The step of an event that calls no operation leaves the shared state. -/
theorem shared_of_step (step : ThreadStep host before event after) :
    after.shared = before.shared ∨
      ∃ worker op, event.Calls worker op ∧
        after.shared = FlexConfig.Server.after host op before.shared := by
  rcases step.shared with same | ⟨op, changed, ⟨worker, answer, answered⟩ | ⟨worker, raised⟩⟩
  · exact .inl same
  · exact .inr ⟨worker, op, .inl ⟨answer, answered⟩, changed⟩
  · exact .inr ⟨worker, op, .inr raised, changed⟩

theorem final_onManager {α : Type} (body : Managing α) (server : Server) :
    final (onManager body server) = { server with manager := final (body server.manager) } := by
  unfold onManager focus
  cases body server.manager with
  | ok value manager => rfl
  | error reason manager => rfl

/-- The operations that may change the manager. -/
theorem changes_manager (changes : (Server.after host op server).manager ≠ server.manager) :
    (∃ files method path request_data, op = .processRequest files method path request_data ∧
      ¬ ReadsOnly method path) ∨
    ∃ session_token details, op = .fireTimer session_token ∧
      server.sessions.sessionTokenTimers.find session_token = some details := by
  cases op with
  | now | passTime | expiredSessions | sweepTimers | eraseSessionToken | eraseTimer =>
      exact absurd rfl changes
  | registerSessionToken req =>
      rw [after_registerSessionToken] at changes
      exact absurd rfl changes
  | checkSessionToken req =>
      rw [after_checkSessionToken] at changes
      exact absurd rfl changes
  | activateSessionToken req =>
      rw [after_activateSessionToken] at changes
      exact absurd rfl changes
  | checkActiveSessionToken req =>
      rw [after_checkActiveSessionToken] at changes
      exact absurd rfl changes
  | releaseSessionToken req =>
      rw [after_releaseSessionToken] at changes
      exact absurd rfl changes
  | getSessionToken req =>
      rw [after_getSessionToken] at changes
      exact absurd rfl changes
  | armTimer session_token details =>
      rw [after_armTimer] at changes
      exact absurd rfl changes
  | quitTimer session_token =>
      rw [after_quitTimer] at changes
      exact absurd rfl changes
  | fireTimer session_token =>
      refine .inr ⟨session_token, ?_⟩
      cases found : server.sessions.sessionTokenTimers.find session_token with
      | some details => exact ⟨details, rfl, rfl⟩
      | none =>
          refine absurd ?_ changes
          change (final (fireTimer host session_token server)).manager = _
          unfold fireTimer
          rw [get_bind, found]
          rfl
  | processRequest files method path request_data =>
      refine .inl ⟨files, method, path, request_data, rfl, fun reads => changes ?_⟩
      have kept : Keeps id (processRequest host files method path request_data) := by
        rcases reads with rfl | ⟨rfl, rfl⟩
        · exact keeps_processRequest_get host files path request_data
        · exact keeps_processRequest_diff host files request_data
      change (final (onManager (FlexConfig.processRequest host files method path request_data)
        server)).manager = _
      rw [final_onManager]
      exact kept server.manager

/-- A thread that newly stands at a checked token has found it leased. -/
theorem checked_of_next {stage : Stage} {answer : op.Answer} {next : Server} {req : Request}
    (returns : does host op server = .ok answer next) (stands : stage.next op answer = .checked req) :
    stage = .checked req ∨ ∃ token, Requests req token server.sessions := by
  cases op with
  | checkSessionToken asked =>
      refine .inr ?_
      obtain ⟨sessions, ran, _⟩ := onSessions_eq_ok.mp returns
      rcases requestedSession_cases asked server.sessions with
        ⟨token, requested⟩ | ⟨status, refused⟩ | raised
      · rw [CheckSessionToken_of_requested requested] at ran
        cases ran
        cases stands
        exact ⟨token, requested⟩
      · rw [CheckSessionToken_of_refused refused] at ran
        cases ran
        cases stands
      · rw [CheckSessionToken_of_raised raised] at ran
        cases ran
  | activateSessionToken asked =>
      rw [Stage.next_activateSessionToken] at stands
      split at stands <;> cases stands
  | checkActiveSessionToken asked =>
      rw [Stage.next_checkActiveSessionToken] at stands
      split at stands <;> cases stands
  | now | registerSessionToken | releaseSessionToken | getSessionToken | expiredSessions
  | eraseSessionToken | armTimer | quitTimer | sweepTimers | eraseTimer | fireTimer
  | processRequest | passTime => exact .inl stands

/-- A thread that newly stands at an active session leaves it the active one. -/
theorem active_of_next {stage : Stage} {answer : op.Answer} {next : Server} {req : Request}
    (returns : does host op server = .ok answer next) (stands : stage.next op answer = .active req) :
    stage = .active req ∨ ∃ token, headerToken req = .ok token ∧
      next.sessions.activeSessionToken = some token ∧
      (stage = .checked req ∨ Requests req token server.sessions) := by
  cases op with
  | activateSessionToken asked =>
      refine .inr ?_
      rw [Stage.next_activateSessionToken] at stands
      split at stands
      · next passed =>
          cases stands
          obtain ⟨sessions, ran, rfl⟩ := onSessions_eq_ok.mp returns
          cases cut : headerToken req with
          | error reason =>
              rw [activateSessionToken_of_raised cut] at ran
              cases ran
          | ok token =>
              by_cases free : server.sessions.FreeFor token
              · rw [activateSessionToken_of_free cut free] at ran
                cases ran
                exact ⟨token, rfl, rfl, .inl passed.2⟩
              · obtain ⟨content, refused⟩ := activateSessionToken_of_taken cut free
                rw [refused] at ran
                cases ran
                cases passed.1
      · cases stands
  | checkActiveSessionToken asked =>
      refine .inr ?_
      obtain ⟨sessions, ran, rfl⟩ := onSessions_eq_ok.mp returns
      rcases CheckActiveSessionToken_cases asked server.sessions with
        ⟨token, requested, active, found⟩ | ⟨status, refused⟩ | raised
      · rw [found] at ran
        cases ran
        cases stands
        exact ⟨token, Requests.cut requested, active, .inr requested⟩
      · rw [refused] at ran
        cases ran
        cases stands
      · rw [raised] at ran
        cases ran
  | checkSessionToken asked =>
      rw [Stage.next_checkSessionToken] at stands
      split at stands <;> cases stands
  | now | registerSessionToken | releaseSessionToken | getSessionToken | expiredSessions
  | eraseSessionToken | armTimer | quitTimer | sweepTimers | eraseTimer | fireTimer
  | processRequest | passTime => exact .inl stands

/-- The active session leaves its place free, by its timer or with its lease. -/
theorem active_left {token : Str} (active : server.sessions.activeSessionToken = some token)
    (leaves : (Server.after host op server).sessions.activeSessionToken ≠ some token) :
    (Server.after host op server).sessions.activeSessionToken = none ∧
      (op = .fireTimer token ∨
        ∃ req, op = .releaseSessionToken req ∧ headerToken req = .ok token) := by
  cases op with
  | now | passTime | expiredSessions | sweepTimers | eraseSessionToken | eraseTimer =>
      exact absurd active leaves
  | processRequest files method path request_data =>
      rw [after_processRequest_sessions] at leaves
      exact absurd active leaves
  | registerSessionToken req =>
      rw [after_registerSessionToken] at leaves
      refine absurd ?_ leaves
      by_cases leased : server.sessions.Leased req.body
      · rw [RegisterSessionToken_of_leased leased]
        exact active
      · rw [RegisterSessionToken_of_free leased]
        exact active
  | checkSessionToken req =>
      rw [after_checkSessionToken] at leaves
      refine absurd ?_ leaves
      rcases requestedSession_cases req server.sessions with
        ⟨other, requested⟩ | ⟨status, refused⟩ | raised
      · rw [CheckSessionToken_of_requested requested]
        exact (touchSession_active other).trans active
      · rw [CheckSessionToken_of_refused refused]
        exact active
      · rw [CheckSessionToken_of_raised raised]
        exact active
  | checkActiveSessionToken req =>
      rw [after_checkActiveSessionToken] at leaves
      refine absurd ?_ leaves
      exact (congrArg SessionManager.activeSessionToken
        (CheckActiveSessionToken_keeps req server.sessions)).trans active
  | getSessionToken req =>
      rw [after_getSessionToken] at leaves
      refine absurd ?_ leaves
      exact (congrArg SessionManager.activeSessionToken
        (GetSessionToken_keeps req server.sessions)).trans active
  | armTimer session_token details =>
      rw [after_armTimer] at leaves
      refine absurd ?_ leaves
      cases found : server.sessions.sessionTokenTimers.find session_token with
      | none =>
          rw [armTimer_of_none found]
          exact active
      | some entry =>
          rw [armTimer_of_some found]
          exact active
  | quitTimer session_token =>
      rw [after_quitTimer] at leaves
      refine absurd ?_ leaves
      cases found : server.sessions.sessionTokenTimers.find session_token with
      | none =>
          rw [quitTimer_of_none found]
          exact active
      | some entry =>
          rw [quitTimer_of_some found]
          exact active
  | activateSessionToken req =>
      rw [after_activateSessionToken] at leaves
      refine absurd ?_ leaves
      cases cut : headerToken req with
      | error reason =>
          rw [activateSessionToken_of_raised cut]
          exact active
      | ok other =>
          by_cases free : server.sessions.FreeFor other
          · rw [activateSessionToken_of_free cut free]
            rcases free with nobody | itself
            · cases nobody.symm.trans active
            · exact itself.symm.trans active
          · obtain ⟨content, refused⟩ := activateSessionToken_of_taken cut free
            rw [refused]
            exact active
  | releaseSessionToken req =>
      rw [after_releaseSessionToken] at leaves ⊢
      cases cut : headerToken req with
      | error reason =>
          rw [releaseSessionToken_of_raised cut] at leaves
          exact absurd active leaves
      | ok other =>
          rw [releaseSessionToken_of_token cut] at leaves ⊢
          by_cases same : server.sessions.activeSessionToken = some other
          · cases active.symm.trans same
            exact ⟨if_pos same, .inr ⟨req, rfl, cut⟩⟩
          · exact absurd ((if_neg same).trans active) leaves
  | fireTimer session_token =>
      rcases after_fireTimer_sessions host server session_token with fired | same
      · rw [fired] at leaves ⊢
        unfold firedSessions RemoveActiveSessionToken at leaves ⊢
        by_cases same : server.sessions.activeSessionToken = some session_token
        · rw [if_pos same]
          cases active.symm.trans same
          exact ⟨rfl, .inl rfl⟩
        · rw [if_neg same] at leaves
          exact absurd active leaves
      · rw [same] at leaves
        exact absurd active leaves

end Steps

section Committed

variable {env : Env} {host : Host} {server : Server} {op : Op}

theorem keeps_answered {body : Managing PUnit} (keeps : Keeps Manager.committed body) :
    Keeps Manager.committed (answered body) := by
  intro manager
  unfold answered
  cases ran : body manager with
  | ok value next => exact keeps.of_ok ran
  | error reason next => cases reason <;> exact keeps.of_error ran

theorem keeps_committed_callbacks {path request_data : Str} {callbacks : List RequestCallback}
    {status_code : StatusCode} {return_data : Str}
    (each : ∀ cb ∈ callbacks, ∀ data, Keeps Manager.committed (cb path request_data data)) :
    Keeps Manager.committed (processCallbacks path request_data callbacks status_code return_data) := by
  induction callbacks generalizing status_code return_data with
  | nil => exact keeps_pure _
  | cons cb rest ih =>
      refine keeps_bind (each cb List.mem_cons_self _) fun result => ?_
      dsimp only
      split
      · exact ih fun other member => each other (List.mem_cons_of_mem _ member)
      · exact keeps_pure _

theorem keeps_committed_onPath {expected path data_request return_data : Str}
    {handler : (data_request return_data : Str) → Managing (StatusCode × Str)}
    (keeps : Keeps Manager.committed (handler data_request return_data)) :
    Keeps Manager.committed (onPath expected handler path data_request return_data) := by
  unfold onPath
  split
  · exact keeps_pure _
  · exact keeps

/-- Of the requests to the manager, an apply alone commits. -/
theorem keeps_committed_processRequest (files : FileOutcome) {method : Method}
    {path : Str} (other : ¬ (method = .PUT ∧ path = URIRequestPath.CANDIDATE))
    (request_data : Str) : Keeps Manager.committed (processRequest host files method path request_data) := by
  cases method with
  | GET =>
      intro manager
      exact congrArg Manager.committed (keeps_processRequest_get host files path request_data manager)
  | POST =>
      refine keeps_committed_callbacks fun cb member data => ?_
      rcases List.mem_pair.mp member with rfl | rfl
      · refine keeps_committed_onPath (keeps_bind (fun manager => ?_) fun diff => keeps_pure _)
        exact congrArg Manager.committed (keeps_getConfigDiff host _ manager)
      · exact keeps_committed_onPath (keeps_bind (keeps_attempt _) fun patch =>
          keeps_bind (keeps_answered (Manager.keeps_committed_make patch)) fun made => keeps_pure _)
  | PUT =>
      refine keeps_committed_callbacks fun cb member data => ?_
      cases List.mem_singleton.mp member
      have skipped : config_candidate_apply files path request_data data =
          pure (.INTERNAL_SUCCESS, data) := onPath_other fun same => other ⟨rfl, same⟩
      rw [skipped]
      exact keeps_pure _
  | DEL =>
      refine keeps_committed_callbacks fun cb member data => ?_
      cases List.mem_singleton.mp member
      exact keeps_committed_onPath (keeps_bind (keeps_answered Manager.keeps_committed_cancel)
        fun cancelled => keeps_pure _)

/-- A request that ends the confirmation leaves what its operation leaves. -/
theorem final_conclusion {files : FileOutcome} {method : Method} {body : Managing PUnit}
    (asked : body ∈ conclusion host files method) (request_data : Str) (manager : Manager) :
    final (processRequest host files method URIRequestPath.CANDIDATE request_data manager) =
      final (body manager) := by
  rw [processRequest_conclusion asked]
  have handles : ∀ {answer next}, answered body manager = .ok answer next →
      (onPath URIRequestPath.CANDIDATE fun _ _ => do
        let answer ← answered body
        return (.OK, assignedBool answer)) URIRequestPath.CANDIDATE request_data [] manager =
          .ok (.OK, assignedBool answer) next := by
    intro answer next ran
    rw [onPath_self, bind_of_ok ran]
    rfl
  cases ran : body manager with
  | ok value next => rw [processCallbacks_of_ok (handles (answered_of_ok ran)) (by decide)]; rfl
  | error reason next =>
      rcases answered_of_error ran with answer | raised
      · rw [processCallbacks_of_ok (handles answer) (by decide)]
        rfl
      · have halts : (onPath URIRequestPath.CANDIDATE fun _ _ => do
            let answer ← answered body
            return (.OK, assignedBool answer)) URIRequestPath.CANDIDATE request_data [] manager =
              .error reason next := by
          rw [onPath_self, bind_of_error raised]
        rw [processCallbacks_of_error halts]
        rfl

/-- What is committed changes in an apply of a pending candidate only, which is committed as a
whole. -/
theorem committed_changes
    (changes : (Server.after host op server).manager.committed ≠ server.manager.committed) :
    ∃ files request_data, op = .processRequest files .PUT URIRequestPath.CANDIDATE request_data ∧
      server.manager.Pending ∧
      (Server.after host op server).manager = server.manager.applied files := by
  rcases changes_manager fun same => changes (congrArg Manager.committed same) with
    ⟨files, method, path, request_data, rfl, _⟩ | ⟨session_token, details, rfl, _⟩
  · have stays : (Server.after host (.processRequest files method path request_data) server).manager =
        final (processRequest host files method path request_data server.manager) :=
      congrArg Server.manager (final_onManager _ server)
    by_cases isApply : method = .PUT ∧ path = URIRequestPath.CANDIDATE
    · obtain ⟨rfl, rfl⟩ := isApply
      refine ⟨files, request_data, rfl, ?_⟩
      have asked : Manager.applyCandidateConfig files ∈ conclusion host files .PUT := rfl
      rw [stays, final_conclusion asked] at changes ⊢
      rcases Manager.apply_cases files server.manager with ⟨reason, halted⟩ | ⟨ready, _, applied⟩
      · rw [halted] at changes
        exact absurd rfl changes
      · rw [applied]
        exact ⟨ready, rfl⟩
    · rw [stays] at changes
      exact absurd (keeps_committed_processRequest files isApply request_data _) changes
  · have kept : Keeps Manager.committed
        (processRequest host .success .DEL URIRequestPath.CANDIDATE []) :=
      keeps_committed_processRequest .success (by decide) []
    refine absurd ?_ changes
    change (final (fireTimer host session_token server)).manager.committed = _
    rcases fireTimer_cases host session_token server with
      ⟨_, _, result, manager, ran, fired⟩ | ⟨_, _, reason, manager, ran, halted⟩ | ⟨_, crashed⟩
    · rw [fired]
      exact kept.of_ok ran
    · rw [halted]
      exact kept.of_error ran
    · rw [crashed]
      rfl

end Committed

section Runs

variable {host : Host}

/-- The threads with the passages their requests have made. -/
abbrev Attended := Threads × (Worker → Passage)

/-- A step, and the passages after it. -/
def AttendedStep (host : Host) : Attended → Happening → Attended → Prop :=
  Watched (ThreadStep host) fun notes _ event _ => event.observe admission begins notes

/-- The run of a schedule, with the passages. -/
def attend (host : Host) (turns : List Turn) (server : Server) : List (Happening × Attended) :=
  watch (fun notes _ event _ => event.observe admission begins notes) server.idle begins
    (playTurns host turns server.idle)

/-- What a step shows of who does what. -/
structure Admits (before : Attended) (event : Happening) (after : Attended) : Prop where
  changes : after.1.shared.manager ≠ before.1.shared.manager →
    (∃ worker files method path req,
      event.Calls worker (.processRequest files method path req.body) ∧
        (before.2 worker).stage = .active req) ∨
    ∃ session_token details, event.Calls .checking (.fireTimer session_token) ∧
      before.1.shared.sessions.sessionTokenTimers.find session_token = some details
  checked : ∀ worker req, (after.2 worker).stage = .checked req →
    (before.2 worker).stage = .checked req ∨ ∃ token, Requests req token before.1.shared.sessions
  active : ∀ worker req, (after.2 worker).stage = .active req →
    (before.2 worker).stage = .active req ∨ ∃ token, headerToken req = .ok token ∧
      after.1.shared.sessions.activeSessionToken = some token ∧
      ((before.2 worker).stage = .checked req ∨ Requests req token before.1.shared.sessions)
  leaves : ∀ token, before.1.shared.sessions.activeSessionToken = some token →
    after.1.shared.sessions.activeSessionToken ≠ some token →
      after.1.shared.sessions.activeSessionToken = none ∧
      (event.Calls .checking (.fireTimer token) ∨
        ∃ worker req, event.Calls worker (.releaseSessionToken req) ∧
          headerToken req = .ok token ∧ (before.2 worker).stage = .checked req)

/-- Every thread obeys, from the passage that is noted of it, and the passage is its own. -/
structure Orderly (attended : Attended) : Prop where
  obey : attended.1.Obey admission attended.2
  own : ∀ worker, (attended.2 worker).worker = worker

variable {before after : Attended} {event : Happening}

theorem orderly_of_step (orderly : Orderly before) (step : AttendedStep host before event after) :
    Orderly after := by
  obtain ⟨moves, records⟩ := step
  have notes : after.2 = event.observe admission begins before.2 := records
  constructor
  · rw [notes]
    exact Pool.Step.obey (fun worker task may => obeys_of_mayStart may) (fun _ _ _ _ _ => trivial)
      orderly.obey moves
  · intro worker
    rw [notes]
    rcases Event.observe_cases admission begins event before.2 worker with
      same | anew | ⟨op, reply, _, records⟩
    · rw [same]
      exact orderly.own worker
    · rw [anew]
      rfl
    · rw [records]
      exact orderly.own worker

/-- A passage changes by an answer to its own thread, or begins anew. -/
theorem passage_cases (step : AttendedStep host before event after) (worker : Worker) :
    after.2 worker = before.2 worker ∨ after.2 worker = begins worker ∨
      ∃ op answer, does host op before.1.shared = .ok answer after.1.shared ∧
        (after.2 worker).stage = (before.2 worker).stage.next op answer := by
  obtain ⟨moves, records⟩ := step
  have notes : after.2 = event.observe admission begins before.2 := records
  rw [notes]
  rcases Event.observe_cases admission begins event before.2 worker with
    same | anew | ⟨op, reply, rfl, records⟩
  · exact .inl same
  · exact .inr (.inl anew)
  · exact .inr (.inr ⟨op, reply, moves.returns, congrArg Passage.stage records⟩)

theorem admits_of_step (orderly : Orderly before) (step : AttendedStep host before event after) :
    Admits before event after := by
  have allowed : ∀ {worker op}, event.Calls worker op → (before.2 worker).allows op :=
    fun calls => Pool.Step.allowed orderly.obey step.1 calls
  constructor
  · intro changes
    rcases shared_of_step step.1 with same | ⟨worker, op, calls, shared⟩
    · exact absurd (congrArg Server.manager same) changes
    rw [shared] at changes
    rcases changes_manager changes with
      ⟨files, method, path, request_data, rfl, writes⟩ | ⟨session_token, details, rfl, found⟩
    · rcases allowed calls with reads | ⟨req, active, rfl⟩
      · exact absurd reads writes
      · exact .inl ⟨worker, files, method, path, req, calls, active⟩
    · have checking : worker = .checking := (orderly.own worker).symm.trans (allowed calls)
      exact .inr ⟨session_token, details, checking ▸ calls, found⟩
  · intro worker req stands
    rcases passage_cases step worker with same | anew | ⟨op, answer, returns, next⟩
    · exact .inl (same ▸ stands)
    · rw [anew] at stands
      cases stands
    · exact checked_of_next returns (next ▸ stands)
  · intro worker req stands
    rcases passage_cases step worker with same | anew | ⟨op, answer, returns, next⟩
    · exact .inl (same ▸ stands)
    · rw [anew] at stands
      cases stands
    · exact active_of_next returns (next ▸ stands)
  · intro token active leaves
    rcases shared_of_step step.1 with same | ⟨worker, op, calls, shared⟩
    · rw [same] at leaves
      exact absurd active leaves
    rw [shared] at leaves ⊢
    obtain ⟨free, rfl | ⟨req, rfl, cut⟩⟩ := active_left active leaves
    · have checking : worker = .checking := (orderly.own worker).symm.trans (allowed calls)
      exact ⟨free, .inl (checking ▸ calls)⟩
    · exact ⟨free, .inr ⟨worker, req, calls, cut, allowed calls⟩⟩

theorem orderly_of_started {threads : Threads} (started : ThreadsStarted host threads) :
    Orderly (threads, begins) where
  obey := fun worker => by
    rw [started.idle worker]
    exact trivial
  own := fun _ => rfl

/-- In every run of the threads, whatever their order, each step shows that the manager is changed
by the checking thread's timers, or by a request that has passed its checks on its own thread; and
that the active session gives up its place by a checked request with its token, its expiry or its
timer. -/
theorem admits_along {threads : Threads} {trail : List (Happening × Attended)}
    (started : ThreadsStarted host threads)
    (run : Along (AttendedStep host) (threads, begins) trail) :
    Along Admits (threads, begins) trail :=
  along_of_invariant Orderly (fun orderly step _ => ⟨orderly_of_step orderly step,
    admits_of_step orderly step⟩) (orderly_of_started started) run run

/-- What a step shows of what is committed. -/
def Commits (before : Attended) (event : Happening) (after : Attended) : Prop :=
  after.1.shared.manager.committed ≠ before.1.shared.manager.committed →
    ∃ worker files req,
      event.Calls worker (.processRequest files .PUT URIRequestPath.CANDIDATE req.body) ∧
      (before.2 worker).stage = .active req ∧ before.1.shared.manager.Pending ∧
      after.1.shared.manager = before.1.shared.manager.applied files

/-- In every run of the threads, the file and the running configuration change in an apply only, on
a request that has passed its checks, and to the candidate that was pending. -/
theorem commits_along {threads : Threads} {trail : List (Happening × Attended)}
    (started : ThreadsStarted host threads)
    (run : Along (AttendedStep host) (threads, begins) trail) :
    Along Commits (threads, begins) trail := by
  refine along_of_invariant Orderly (fun {before event after} orderly step _ =>
    ⟨orderly_of_step orderly step, fun changes => ?_⟩) (orderly_of_started started) run run
  rcases shared_of_step step.1 with same | ⟨worker, op, calls, shared⟩
  · exact absurd (congrArg (fun server => server.manager.committed) same) changes
  rw [shared] at changes ⊢
  obtain ⟨files, request_data, rfl, pending, applied⟩ := committed_changes changes
  rcases Pool.Step.allowed orderly.obey step.1 calls with (get | ⟨post, _⟩) | ⟨req, active, rfl⟩
  · cases get
  · cases post
  · exact ⟨worker, files, req, calls, active, pending, applied⟩

end Runs

end FlexConfig.Server

namespace FlexConfig.Sample

open HTTP Concurrent Server

/-- A session is leased, updates, and confirms, while another one is leased. -/
def updatedAndConfirmed : List Turn :=
  [.request 0 (leasing "s") .postSessionToken, .go (.connection 0),
    .request 0 (bearer "s" replaceText) .postRunningUpdate, .go (.connection 0),
    .request 1 (leasing "t") .postSessionToken, .go (.connection 1)] ++
    List.replicate 7 (.go (.connection 0)) ++
    [.request 0 (bearer "s" []) (.putCandidate .success)] ++
    List.replicate 4 (.go (.connection 0))

theorem attended_run (server : Server) :
    Along (AttendedStep oneLeafHost) (server.idle, begins)
      (attend oneLeafHost updatedAndConfirmed server) :=
  along_watch (along_playTurns updatedAndConfirmed server.idle)

/-- The manager is changed in this run, and each step shows who does it. -/
theorem admits_along_confirmed :
    ∃ server ∈ Server.start oneLeafHost oneLeafConfig,
      (∃ last ∈ (playTurns oneLeafHost updatedAndConfirmed server.idle).getLast?,
        last.2.shared.manager.runningJson = object [("a", text "new")]) ∧
      Along Admits (server.idle, begins) (attend oneLeafHost updatedAndConfirmed server) := by
  have applied : ∃ server ∈ Server.start oneLeafHost oneLeafConfig,
      ∃ last ∈ (playTurns oneLeafHost updatedAndConfirmed server.idle).getLast?,
        last.2.shared.manager.runningJson = object [("a", text "new")] := by
    decide +kernel
  obtain ⟨server, starts, changed⟩ := applied
  exact ⟨server, starts, changed,
    admits_along (threadsStarted_idle (started_of_start starts)) (attended_run server)⟩

/-- So is what is committed. -/
theorem commits_along_confirmed :
    ∃ server ∈ Server.start oneLeafHost oneLeafConfig,
      server.manager.runningJson = oneLeafConfig ∧
      (∃ last ∈ (playTurns oneLeafHost updatedAndConfirmed server.idle).getLast?,
        last.2.shared.manager.configFile = some (object [("a", text "new")])) ∧
      Along Commits (server.idle, begins) (attend oneLeafHost updatedAndConfirmed server) := by
  have applied : ∃ server ∈ Server.start oneLeafHost oneLeafConfig,
      server.manager.runningJson = oneLeafConfig ∧
      ∃ last ∈ (playTurns oneLeafHost updatedAndConfirmed server.idle).getLast?,
        last.2.shared.manager.configFile = some (object [("a", text "new")]) := by
    decide +kernel
  obtain ⟨server, starts, before, changed⟩ := applied
  exact ⟨server, starts, before, changed,
    commits_along (threadsStarted_idle (started_of_start starts)) (attended_run server)⟩

end FlexConfig.Sample
