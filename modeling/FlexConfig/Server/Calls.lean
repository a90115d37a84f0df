import FlexConfig.Server.Candidate

/-! # Calls in sequence

Requests, and what the checking thread does in a round, one after another: each is a routine
that runs to its end before the next begins. A round of the checking thread is a sequence of
such calls (`round_of_checkExpiration`), so what holds after any sequence of calls holds
whether or not requests come in between the expiries and the firings of a round.
-/

namespace FlexConfig.Server

open Procedure HTTP Concurrent SessionManager

/-- A request, the end of an expired session, the removal of a timer that was quit, the firing of
one that is due, or time that passes. -/
inductive Call where
  | request (req : Request) (endpoint : Endpoint)
  | expire (session_token : Str)
  | dropTimer (session_token : Str)
  | fire (session_token : Str)
  | wait (duration : Nat)

def Call.task : Call → Task PUnit
  | .request req endpoint => handle req endpoint >>= fun _ => pure PUnit.unit
  | .expire session_token => expireSession session_token
  | .dropTimer session_token => ask (.eraseTimer session_token)
  | .fire session_token => ask (.fireTimer session_token)
  | .wait duration => ask (.passTime duration)

/-- A leased session whose last noted request is too long ago. -/
def Expired (server : Server) (session_token : Str) : Prop :=
  ∃ details, server.sessions.leasedSessionTokens.find session_token = some details ∧
    wholeSeconds (server.clock - details.LastRequestAt) > server.sessions.sessionTimeoutSec

/-- When a call can come. -/
def Call.Comes (server : Server) : Call → Prop
  | .expire session_token => Expired server session_token
  | .dropTimer session_token =>
    ∃ details, server.sessions.sessionTokenTimers.find session_token = some details ∧
      details.QuitFlag = true
  | .fire session_token =>
    ∃ details, server.sessions.sessionTokenTimers.find session_token = some details ∧
      Due server.clock details = true
  | .request _ _ | .wait _ => True

/-- The server goes on after a call: an exception ends a request, and in the checking thread it
ends the process. -/
def Call.GoesOn (host : Host) (server : Server) (call : Call) : Prop :=
  match call.task.run (does host) server with
  | .ok _ _ => True
  | .error .raised _ => ∃ req endpoint, call = .request req endpoint
  | .error _ _ => False

/-- What a call leaves of the server. -/
def served (host : Host) (call : Call) (server : Server) : Server :=
  final (call.task.run (does host) server)

/-- One call and the server after it. -/
def Step (host : Host) (before : Server) (call : Call) (after : Server) : Prop :=
  call.Comes before ∧ call.GoesOn host before ∧ after = served host call before

variable {host : Host} {server : Server} {req : Request}

section Routines

variable {α : Type}

@[simp] theorem run_ask (op : Op) : (ask op).run (does host) = does host op :=
  Routine.run_perform op

/-- What follows a task leaves what the task has left, if it does no more. -/
theorem final_bind_of_keeps {β : Type} {task : Task α} {rest : α → Task β}
    (keeps : ∀ value next, final ((rest value).run (does host) next) = next) :
    final ((task >>= rest).run (does host) server) = final (task.run (does host) server) := by
  rw [Routine.run_bind]
  cases ran : task.run (does host) server with
  | ok value next => rw [bind_of_ok ran, keeps]; rfl
  | error reason next => rw [bind_of_error ran]; rfl

theorem final_bind_pure {β : Type} (task : Task α) (answer : α → β) :
    final ((task >>= fun value => pure (answer value)).run (does host) server) =
      final (task.run (does host) server) := final_bind_of_keeps fun _ _ => rfl

theorem run_bind_of_ok {β : Type} {task : Task α} {rest : α → Task β} {value : α} {next : Server}
    (ran : task.run (does host) server = .ok value next) :
    (task >>= rest).run (does host) server = (rest value).run (does host) next := by
  rw [Routine.run_bind, bind_of_ok ran]

theorem run_bind_of_error {β : Type} {task : Task α} {rest : α → Task β} {reason : Halt}
    {next : Server} (ran : task.run (does host) server = .error reason next) :
    (task >>= rest).run (does host) server = .error reason next := by
  rw [Routine.run_bind, bind_of_error ran]

theorem onSessions_of_ok {body : Sessioning α} {value : α} {sessions : SessionManager}
    (ran : body server.sessions = .ok value sessions) :
    onSessions body server = .ok value { server with sessions := sessions } :=
  onSessions_eq_ok.mpr ⟨sessions, ran, rfl⟩

theorem onSessions_of_error {body : Sessioning α} {reason : Halt} {sessions : SessionManager}
    (ran : body server.sessions = .error reason sessions) :
    onSessions body server = .error reason { server with sessions := sessions } :=
  onSessions_eq_error.mpr ⟨sessions, ran, rfl⟩

end Routines

section Sessions

/-- The sessions after a session's timer was cancelled; the empty token has no timer. -/
def quitSession (session_token : Str) (sessions : SessionManager) : SessionManager :=
  if session_token = [] then sessions else final (quitTimer session_token sessions)

/-- The sessions after a timer was set for a session. -/
def armSession (session_token : Str) (timer_details : TimerThreadDetails)
    (sessions : SessionManager) : SessionManager :=
  if session_token = [] then sessions else final (armTimer session_token timer_details sessions)

/-- The sessions after one of them became active by a request. -/
def activated (clock : TimePoint) (session_token : Str) (sessions : SessionManager) :
    SessionManager :=
  { sessions.touchSession clock session_token with activeSessionToken := some session_token }

/-- The token that the header made of a token is read as, if one is made. -/
def readToken (session_token : Str) : Option Str :=
  if '\r' ∈ Text.c_str session_token ∨ '\n' ∈ Text.c_str session_token then none
  else some (Text.c_str session_token)

/-- The end of a session's lease ends that of a token: its own, or the one its header is read as. -/
def Ends (session_token token : Str) : Prop :=
  token = session_token ∨ readToken session_token = some token

instance (session_token token : Str) : Decidable (Ends session_token token) :=
  inferInstanceAs (Decidable (_ ∨ _))

/-- The sessions after the callback for the end of a session has asked for its removal. -/
def removedByHeader (clock : TimePoint) (session_token : Str) (sessions : SessionManager) :
    SessionManager :=
  match readToken session_token with
  | none => sessions
  | some token =>
    if sessions.Leased token then (sessions.touchSession clock token).withoutSession token
    else sessions

/-- The sessions after one of them has expired. -/
def expiredSession (clock : TimePoint) (session_token : Str) (sessions : SessionManager) :
    SessionManager :=
  let removed := removedByHeader clock session_token sessions
  { removed with leasedSessionTokens := removed.leasedSessionTokens.erase session_token }

/-- A request is one of the session of a token. -/
def Requests (req : Request) (session_token : Str) (sessions : SessionManager) : Prop :=
  requestedSession req sessions = .ok (.ok session_token)

theorem Requests.cut {session_token : Str} {sessions : SessionManager}
    (requests : Requests req session_token sessions) : headerToken req = .ok session_token :=
  (requestedSession_eq_ok.mp requests).2.1

/-- A request stays one of the session as long as the session is leased. -/
theorem Requests.of_leased {session_token : Str} {sessions next : SessionManager}
    (requests : Requests req session_token sessions) (leased : next.Leased session_token) :
    Requests req session_token next :=
  have known := requestedSession_eq_ok.mp requests
  requestedSession_eq_ok.mpr ⟨known.1, known.2.1, leased⟩

theorem Requests.leased {session_token : Str} {sessions : SessionManager}
    (requests : Requests req session_token sessions) : sessions.Leased session_token :=
  (requestedSession_eq_ok.mp requests).2.2

end Sessions

section Timers

variable {session_token : Str}

@[simp] theorem activated_leased (clock : TimePoint) (query : Str) (sessions : SessionManager) :
    (activated clock session_token sessions).Leased query ↔ sessions.Leased query :=
  touchSession_leased session_token query

/-- The timers alone are different after a timer was cancelled. -/
theorem quitSession_eq (sessions : SessionManager) : quitSession session_token sessions =
    { sessions with
      sessionTokenTimers := (quitSession session_token sessions).sessionTokenTimers } := by
  unfold quitSession
  split
  · rfl
  · cases found : sessions.sessionTokenTimers.find session_token with
    | none => rw [quitTimer_of_none found]; rfl
    | some details => rw [quitTimer_of_some found]; rfl

/-- Likewise after one was set. -/
theorem armSession_eq (timer_details : TimerThreadDetails) (sessions : SessionManager) :
    armSession session_token timer_details sessions =
      { sessions with
        sessionTokenTimers :=
          (armSession session_token timer_details sessions).sessionTokenTimers } := by
  unfold armSession
  split
  · rfl
  · cases found : sessions.sessionTokenTimers.find session_token with
    | none => rw [armTimer_of_none found]; rfl
    | some details => rw [armTimer_of_some found]; rfl

theorem quitSession_find (query : Str) (sessions : SessionManager) :
    (quitSession session_token sessions).sessionTokenTimers.find query =
      if query = session_token ∧ session_token ≠ [] then
        (sessions.sessionTokenTimers.find query).map fun details => { details with QuitFlag := true }
      else sessions.sessionTokenTimers.find query := by
  unfold quitSession
  by_cases empty : session_token = []
  · rw [if_pos empty, if_neg fun both => both.2 empty]
  · rw [if_neg empty]
    cases found : sessions.sessionTokenTimers.find session_token with
    | none =>
        rw [quitTimer_of_none found, final_ok]
        split
        · next same => rw [same.1, found]; rfl
        · rfl
    | some details =>
        rw [quitTimer_of_some found, final_ok, SortedMap.find_insert]
        by_cases same : query = session_token
        · rw [if_pos same, if_pos ⟨same, empty⟩, same, found]
          rfl
        · rw [if_neg same, if_neg fun both => same both.1]

theorem armSession_find (query : Str) (timer_details : TimerThreadDetails)
    (sessions : SessionManager) :
    (armSession session_token timer_details sessions).sessionTokenTimers.find query =
      if query = session_token ∧ session_token ≠ [] ∧
          sessions.sessionTokenTimers.find session_token = none then some timer_details
      else sessions.sessionTokenTimers.find query := by
  unfold armSession
  by_cases empty : session_token = []
  · rw [if_pos empty, if_neg fun all => all.2.1 empty]
  · rw [if_neg empty]
    cases found : sessions.sessionTokenTimers.find session_token with
    | none =>
        rw [armTimer_of_none found, final_ok, SortedMap.find_insert]
        by_cases same : query = session_token
        · rw [if_pos same, if_pos ⟨same, empty, rfl⟩]
        · rw [if_neg same, if_neg fun all => same all.1]
    | some details =>
        rw [armTimer_of_some found, final_ok, if_neg]
        intro impossible
        cases impossible.2.2

theorem quitSession_leased (sessions : SessionManager) :
    (quitSession session_token sessions).leasedSessionTokens = sessions.leasedSessionTokens := by
  rw [quitSession_eq]

/-- What setting a timer answers. -/
def setAnswer (session_token : Str) (sessions : SessionManager) : Bool :=
  decide (session_token ≠ []) &&
    (sessions.sessionTokenTimers.find session_token).all TimerThreadDetails.QuitFlag

theorem does_getSessionToken (requests : Requests req session_token server.sessions) :
    does host (.getSessionToken req) server = .ok (some session_token) server :=
  onSessions_of_ok (GetSessionToken_of_requested requests)

theorem run_cancel (host : Host) (requests : Requests req session_token server.sessions) :
    ∃ answer, (CancelSessionTokenTimerOnce req).run (does host) server =
      .ok answer { server with sessions := quitSession session_token server.sessions } := by
  have known : (ask (.getSessionToken req)).run (does host) server = _ :=
    (congrFun (run_ask _) server).trans (does_getSessionToken requests)
  have rest : ∃ answer, (if session_token = [] then pure false
      else ask (.quitTimer session_token) : Task Bool).run (does host) server =
        .ok answer { server with sessions := quitSession session_token server.sessions } := by
    unfold quitSession
    by_cases empty : session_token = []
    · rw [if_pos empty, if_pos empty]
      exact ⟨false, rfl⟩
    · rw [if_neg empty, if_neg empty]
      cases found : server.sessions.sessionTokenTimers.find session_token with
      | none =>
          rw [quitTimer_of_none found]
          exact ⟨false, (congrFun (run_ask _) server).trans
            (onSessions_of_ok (quitTimer_of_none found))⟩
      | some details =>
          rw [quitTimer_of_some found]
          exact ⟨true, (congrFun (run_ask _) server).trans
            (onSessions_of_ok (quitTimer_of_some found))⟩
  obtain ⟨answer, ran⟩ := rest
  exact ⟨answer, (run_bind_of_ok known).trans ran⟩

theorem run_set (requests : Requests req session_token server.sessions)
    (timer_callback : SessionTokenTimerCB) (timeout_sec : Int) :
    (SetSessionTokenTimerOnce req timer_callback timeout_sec).run (does host) server =
      .ok (setAnswer session_token server.sessions)
        { server with
          sessions := armSession session_token ⟨timer_callback, server.clock, timeout_sec, false⟩
            server.sessions } := by
  have known : (ask (.getSessionToken req)).run (does host) server = _ :=
    (congrFun (run_ask _) server).trans (does_getSessionToken requests)
  refine (run_bind_of_ok known).trans ?_
  change (if session_token = [] then pure false else do
    let now : TimePoint ← ask .now
    ask (.armTimer session_token ⟨timer_callback, now, timeout_sec, false⟩) :
      Task Bool).run (does host) server = _
  unfold armSession setAnswer
  by_cases empty : session_token = []
  · rw [if_pos empty, if_pos empty, decide_eq_false (fun differs => differs empty)]
    rfl
  · rw [if_neg empty, if_neg empty, decide_eq_true empty]
    have read : (ask .now).run (does host) server = .ok server.clock server := rfl
    refine (run_bind_of_ok read).trans ?_
    cases found : server.sessions.sessionTokenTimers.find session_token with
    | none =>
        rw [armTimer_of_none found]
        exact (congrFun (run_ask _) server).trans (onSessions_of_ok (armTimer_of_none found))
    | some details =>
        rw [armTimer_of_some found]
        exact (congrFun (run_ask _) server).trans (onSessions_of_ok (armTimer_of_some found))

end Timers

section Requests

variable {session_token : Str} {endpoint : Endpoint}

/-- A request is accepted as one of a session: the check its handler begins with succeeds. -/
def Accepts (server : Server) (req : Request) : Endpoint → (session_token : Str) → Prop
  | .postRunningUpdate, session_token =>
    Requests req session_token server.sessions ∧ server.sessions.FreeFor session_token
  | .deleteSessionToken, session_token => Requests req session_token server.sessions
  | .getCandidate, session_token | .putCandidate _, session_token
  | .deleteCandidate, session_token =>
    Requests req session_token server.sessions ∧
      server.sessions.activeSessionToken = some session_token
  | .postSessionToken, _ | .getRunning, _ | .postRunningDiff, _ => False

instance (token : Str) (sessions : SessionManager) : Decidable (Requests req token sessions) :=
  inferInstanceAs (Decidable (_ = _))

instance (endpoint : Endpoint) (token : Str) : Decidable (Accepts server req endpoint token) :=
  match endpoint with
  | .postRunningUpdate | .getCandidate | .putCandidate _ | .deleteCandidate => instDecidableAnd
  | .deleteSessionToken => inferInstanceAs (Decidable (Requests _ _ _))
  | .postSessionToken | .getRunning | .postRunningDiff => isFalse id

theorem Accepts.requests (accepts : Accepts server req endpoint session_token) :
    Requests req session_token server.sessions := by
  cases endpoint with
  | postRunningUpdate | getCandidate | putCandidate | deleteCandidate => exact accepts.1
  | deleteSessionToken => exact accepts
  | postSessionToken | getRunning | postRunningDiff => exact accepts.elim

/-- The session of which a request is accepted as one. -/
def acceptedToken (server : Server) (req : Request) (endpoint : Endpoint) : Option Str :=
  match requestedSession req server.sessions with
  | .ok (.ok session_token) =>
    if Accepts server req endpoint session_token then some session_token else none
  | _ => none

theorem acceptedToken_eq_some :
    acceptedToken server req endpoint = some session_token ↔
      Accepts server req endpoint session_token := by
  unfold acceptedToken
  constructor
  · intro accepted
    split at accepted
    · split at accepted
      · next accepts =>
          cases accepted
          exact accepts
      · cases accepted
    · cases accepted
  · intro accepts
    have requests : requestedSession req server.sessions = .ok (.ok session_token) :=
      accepts.requests
    rw [requests]
    exact if_pos accepts

/-- A request is of one session only. -/
theorem token_of_accepts {token : Str} (requests : Requests req session_token server.sessions)
    (accepts : Accepts server req endpoint token) : token = session_token :=
  (Except.ok.inj (Except.ok.inj (requests.symm.trans accepts.requests))).symm

theorem unaccepted_of_taken (requests : Requests req session_token server.sessions)
    (taken : ¬ server.sessions.FreeFor session_token) (token : Str) :
    ¬ Accepts server req .postRunningUpdate token := by
  intro accepts
  cases token_of_accepts requests accepts
  exact taken accepts.2

theorem acceptedToken_eq_none :
    acceptedToken server req endpoint = none ↔ ∀ token, ¬ Accepts server req endpoint token := by
  rw [Option.eq_none_iff_forall_ne_some]
  exact forall_congr' fun token => not_congr acceptedToken_eq_some

theorem served_request (req : Request) (endpoint : Endpoint) (server : Server) :
    served host (.request req endpoint) server =
      final ((handle req endpoint).run (does host) server) :=
  final_bind_pure (handle req endpoint) _

theorem run_checkSessionToken (requests : Requests req session_token server.sessions) :
    (ask (.checkSessionToken req)).run (does host) server = .ok ⟨true, .OK, none⟩
      { server with sessions := server.sessions.touchSession server.clock session_token } :=
  (congrFun (run_ask _) server).trans (onSessions_of_ok (CheckSessionToken_of_requested requests))

/-- A check that is not passed leaves the server as it was. -/
theorem run_checkSessionToken_of_refused (host : Host)
    (refused : ∀ token, ¬ Requests req token server.sessions) :
    (∃ status, (ask (.checkSessionToken req)).run (does host) server =
      .ok ⟨false, status, none⟩ server) ∨
        (ask (.checkSessionToken req)).run (does host) server = .error .raised server := by
  rcases requestedSession_cases req server.sessions with
    ⟨token, requested⟩ | ⟨status, refusal⟩ | raised
  · exact (refused token requested).elim
  · exact Or.inl ⟨status, (congrFun (run_ask _) server).trans
      (onSessions_of_ok (CheckSessionToken_of_refused refusal))⟩
  · exact Or.inr ((congrFun (run_ask _) server).trans
      (onSessions_of_error (CheckSessionToken_of_raised raised)))

theorem run_checkActiveSessionToken (requests : Requests req session_token server.sessions)
    (active : server.sessions.activeSessionToken = some session_token) :
    (ask (.checkActiveSessionToken req)).run (does host) server =
      .ok ⟨true, .OK, none⟩ server :=
  (congrFun (run_ask _) server).trans
    (onSessions_of_ok (CheckActiveSessionToken_of_active requests active))

theorem run_checkActiveSessionToken_of_refused (host : Host)
    (refused : ∀ token, ¬ (Requests req token server.sessions ∧
      server.sessions.activeSessionToken = some token)) :
    (∃ status, (ask (.checkActiveSessionToken req)).run (does host) server =
      .ok ⟨false, status, none⟩ server) ∨
        (ask (.checkActiveSessionToken req)).run (does host) server = .error .raised server := by
  rcases CheckActiveSessionToken_cases req server.sessions with
    ⟨token, requested, active, _⟩ | ⟨status, refusal⟩ | raised
  · exact (refused token ⟨requested, active⟩).elim
  · exact Or.inl ⟨status, (congrFun (run_ask _) server).trans (onSessions_of_ok refusal)⟩
  · exact Or.inr ((congrFun (run_ask _) server).trans (onSessions_of_error raised))

theorem served_postSessionToken :
    served host (.request req .postSessionToken) server =
      if server.sessions.Leased req.body then server
      else { server with
        sessions := { server.sessions with
          leasedSessionTokens :=
            server.sessions.leasedSessionTokens.insert req.body ⟨server.clock, server.clock⟩ } } := by
  have unfolded : served host (.request req .postSessionToken) server =
      final (onSessions (RegisterSessionToken server.clock req) server) := by
    rw [served_request]
    exact (final_bind_pure (ask (.registerSessionToken req)) Verdict.response).trans
      (congrArg final (congrFun (run_ask _) server))
  rw [unfolded, final_onSessions]
  by_cases leased : server.sessions.Leased req.body
  · rw [RegisterSessionToken_of_leased leased, if_pos leased]
    rfl
  · rw [RegisterSessionToken_of_free leased, if_neg leased]
    rfl

theorem served_deleteSessionToken (requests : Requests req session_token server.sessions) :
    served host (.request req .deleteSessionToken) server =
      { server with
        sessions :=
          (server.sessions.touchSession server.clock session_token).withoutSession
            session_token } := by
  rw [served_request]
  refine (final_bind_pure (RemoveSessionToken req) Verdict.response).trans ?_
  unfold RemoveSessionToken
  rw [run_bind_of_ok (run_checkSessionToken requests), if_pos rfl, run_ask]
  exact (final_onSessions (releaseSessionToken req) _).trans
    (by rw [releaseSessionToken_of_token requests.cut]; rfl)

theorem served_deleteSessionToken_of_refused
    (refused : ∀ token, ¬ Accepts server req .deleteSessionToken token) :
    served host (.request req .deleteSessionToken) server = server := by
  rw [served_request]
  refine (final_bind_pure (RemoveSessionToken req) Verdict.response).trans ?_
  unfold RemoveSessionToken
  rcases run_checkSessionToken_of_refused host refused with ⟨status, ran⟩ | ran
  · rw [run_bind_of_ok ran, if_neg Bool.false_ne_true]
    rfl
  · rw [run_bind_of_error ran]
    rfl

/-- The manager after a request was handed to it, whether it returned or not. -/
theorem final_processRequest (files : FileOutcome) (method : Method) (path request_data : Str)
    (server : Server) :
    final ((ask (.processRequest files method path request_data)).run (does host) server) =
      { server with
        manager := final (processRequest host files method path request_data server.manager) } := by
  rw [run_ask]
  change final (onManager (FlexConfig.processRequest host files method path request_data) server) = _
  unfold onManager focus
  cases FlexConfig.processRequest host files method path request_data server.manager with
  | ok value manager => rfl
  | error reason manager => rfl

theorem final_respond (files : FileOutcome) (method : Method) (path : Str) (req : Request)
    (server : Server) :
    final ((respond files method path req).run (does host) server) =
      { server with
        manager := final (processRequest host files method path req.body server.manager) } :=
  (final_bind_pure (ask (.processRequest files method path req.body)) _).trans
    (final_processRequest ..)

theorem run_respond_of_ok {files : FileOutcome} {method : Method} {path : Str}
    {result : StatusCode × Str} {manager : Manager}
    (ran : FlexConfig.processRequest host files method path req.body server.manager =
      .ok result manager) :
    ∃ response, (respond files method path req).run (does host) server =
      .ok response { server with manager := manager } := by
  have asked : (ask (.processRequest files method path req.body)).run (does host) server =
      .ok result { server with manager := manager } :=
    (congrFun (run_ask _) server).trans (onManager_of_ok ran)
  exact ⟨_, run_bind_of_ok asked⟩

theorem run_respond_of_error {files : FileOutcome} {method : Method} {path : Str} {reason : Halt}
    {manager : Manager}
    (ran : FlexConfig.processRequest host files method path req.body server.manager =
      .error reason manager) :
    (respond files method path req).run (does host) server =
      .error reason { server with manager := manager } :=
  run_bind_of_error ((congrFun (run_ask _) server).trans (onManager_of_error ran))

theorem served_getRunning : served host (.request req .getRunning) server = server := by
  rw [served_request]
  refine (final_bind_of_keeps fun result next => ?_).trans ?_
  · split <;> rfl
  · have kept : final (FlexConfig.processRequest host .success .GET URIRequestPath.RUNNING
        req.body server.manager) = server.manager :=
      keeps_processRequest_get host .success _ _ server.manager
    rw [final_processRequest, kept]

theorem served_postRunningDiff : served host (.request req .postRunningDiff) server = server := by
  have kept : final (FlexConfig.processRequest host .success .POST URIRequestPath.RUNNING_DIFF
      req.body server.manager) = server.manager :=
    keeps_processRequest_diff host .success _ server.manager
  rw [served_request]
  refine (final_respond .success .POST URIRequestPath.RUNNING_DIFF req server).trans ?_
  rw [kept]

theorem served_getCandidate : served host (.request req .getCandidate) server = server := by
  rw [served_request]
  refine (final_bind_of_keeps fun (verdict : Verdict) next => ?_).trans ?_
  · split
    · have kept : final (FlexConfig.processRequest host .success .GET URIRequestPath.CANDIDATE
          req.body next.manager) = next.manager :=
        keeps_processRequest_get host .success _ _ next.manager
      rw [final_respond, kept]
    · rfl
  · have kept : final (CheckActiveSessionToken req server.sessions) = server.sessions :=
      CheckActiveSessionToken_keeps req server.sessions
    rw [run_ask]
    refine (after_checkActiveSessionToken host server req).trans ?_
    rw [kept]

/-- The method and the file operations of a request that concludes the confirmation. -/
def Concluding : Endpoint → FileOutcome → Method → Prop
  | .putCandidate files, outcome, method => outcome = files ∧ method = .PUT
  | .deleteCandidate, outcome, method => outcome = .success ∧ method = .DEL
  | _, _, _ => False

theorem conclusion_of_concluding {files : FileOutcome} {method : Method}
    (concluding : Concluding endpoint files method) :
    (conclusion host files method).isSome = true := by
  cases endpoint with
  | putCandidate | deleteCandidate =>
      obtain ⟨_, rfl⟩ := concluding
      rfl
  | _ => exact concluding.elim

theorem handle_of_concluding {files : FileOutcome} {method : Method}
    (concluding : Concluding endpoint files method) :
    handle req endpoint = concludeCandidate files method req := by
  cases endpoint with
  | putCandidate outcome =>
      obtain ⟨rfl, rfl⟩ := concluding
      rfl
  | deleteCandidate =>
      obtain ⟨rfl, rfl⟩ := concluding
      rfl
  | _ => exact concluding.elim

theorem served_conclude {files : FileOutcome} {method : Method}
    (concluding : Concluding endpoint files method)
    (requests : Requests req session_token server.sessions)
    (active : server.sessions.activeSessionToken = some session_token) :
    served host (.request req endpoint) server =
      { server with
        sessions := quitSession session_token server.sessions
        manager := final (processRequest host files method URIRequestPath.CANDIDATE req.body
          server.manager) } := by
  rw [served_request, handle_of_concluding concluding, concludeCandidate,
    run_bind_of_ok (run_checkActiveSessionToken requests active), if_pos rfl]
  obtain ⟨answer, cancelled⟩ := run_cancel host requests
  rw [run_bind_of_ok cancelled]
  exact final_respond files method URIRequestPath.CANDIDATE req _

theorem served_conclude_of_refused {files : FileOutcome} {method : Method}
    (concluding : Concluding endpoint files method)
    (refused : ∀ token, ¬ Accepts server req endpoint token) :
    served host (.request req endpoint) server = server := by
  have inactive : ∀ token, ¬ (Requests req token server.sessions ∧
      server.sessions.activeSessionToken = some token) := by
    cases endpoint with
    | putCandidate | deleteCandidate => exact refused
    | _ => exact concluding.elim
  rw [served_request, handle_of_concluding concluding, concludeCandidate]
  rcases run_checkActiveSessionToken_of_refused host inactive with ⟨status, ran⟩ | ran
  · rw [run_bind_of_ok ran, if_neg Bool.false_ne_true]
    rfl
  · rw [run_bind_of_error ran]
    rfl

/-- The timer that an update sets. -/
def confirmationTimer (clock : TimePoint) : TimerThreadDetails :=
  ⟨.withdrawCandidate, clock, confirmationTimeoutSec, false⟩

/-- The sessions when an update is handed to the manager: its session is active, and its earlier
timer is cancelled. -/
def updatingSessions (clock : TimePoint) (session_token : Str) (sessions : SessionManager) :
    SessionManager :=
  quitSession session_token (activated clock session_token sessions)

theorem run_activate (requests : Requests req session_token server.sessions)
    (free : server.sessions.FreeFor session_token) :
    (SetActiveSessionToken req).run (does host) server = .ok ⟨true, .OK, none⟩
      { server with sessions := activated server.clock session_token server.sessions } := by
  have stillFree : (server.sessions.touchSession server.clock session_token).FreeFor
      session_token := by
    unfold FreeFor
    rw [touchSession_active]
    exact free
  unfold SetActiveSessionToken
  rw [run_bind_of_ok (run_checkSessionToken requests), if_pos rfl, run_ask]
  exact onSessions_of_ok (activateSessionToken_of_free requests.cut stillFree)

/-- A session that finds another one active is refused after its request was noted. -/
theorem run_activate_of_taken (host : Host) (requests : Requests req session_token server.sessions)
    (taken : ¬ server.sessions.FreeFor session_token) :
    ∃ content, (SetActiveSessionToken req).run (does host) server =
      .ok ⟨false, .CONFLICT, some content⟩
        { server with sessions := server.sessions.touchSession server.clock session_token } := by
  have stillTaken : ¬ (server.sessions.touchSession server.clock session_token).FreeFor
      session_token := by
    unfold FreeFor
    rw [touchSession_active]
    exact taken
  obtain ⟨content, refused⟩ := activateSessionToken_of_taken requests.cut stillTaken
  refine ⟨content, ?_⟩
  unfold SetActiveSessionToken
  rw [run_bind_of_ok (run_checkSessionToken requests), if_pos rfl, run_ask]
  exact onSessions_of_ok refused

/-- An update that finds another session active has noted the request of its own. -/
theorem served_update_of_taken (requests : Requests req session_token server.sessions)
    (taken : ¬ server.sessions.FreeFor session_token) :
    served host (.request req .postRunningUpdate) server =
      { server with sessions := server.sessions.touchSession server.clock session_token } := by
  obtain ⟨content, ran⟩ := run_activate_of_taken host requests taken
  rw [served_request, handle, run_bind_of_ok ran, if_neg Bool.false_ne_true]
  rfl

theorem served_update_of_refused (refused : ∀ token, ¬ Requests req token server.sessions) :
    served host (.request req .postRunningUpdate) server = server := by
  have ran : (∃ verdict : Verdict, verdict.accepted = false ∧
      (SetActiveSessionToken req).run (does host) server = .ok verdict server) ∨
        (SetActiveSessionToken req).run (does host) server = .error .raised server := by
    unfold SetActiveSessionToken
    rcases run_checkSessionToken_of_refused host refused with ⟨status, ran⟩ | ran
    · rw [run_bind_of_ok ran, if_neg Bool.false_ne_true]
      exact Or.inl ⟨_, rfl, rfl⟩
    · rw [run_bind_of_error ran]
      exact Or.inr rfl
  rw [served_request, handle]
  rcases ran with ⟨verdict, unaccepted, ran⟩ | ran
  · rw [run_bind_of_ok ran, unaccepted, if_neg Bool.false_ne_true]
    rfl
  · rw [run_bind_of_error ran]
    rfl

section Live

variable {clock : TimePoint} {query : Str} {timer_details details : TimerThreadDetails}
  {sessions : SessionManager}

/-- A timer that is live after a cancellation is another one and was live before. -/
theorem live_of_quitSession (named : sessions.sessionTokenTimers.find [] = none)
    (found : (quitSession session_token sessions).sessionTokenTimers.find query = some details)
    (live : details.QuitFlag = false) :
    query ≠ session_token ∧ sessions.sessionTokenTimers.find query = some details := by
  rw [quitSession_find] at found
  by_cases cancelled : query = session_token ∧ session_token ≠ []
  · rw [if_pos cancelled] at found
    obtain ⟨_, _, rfl⟩ := Option.map_eq_some_iff.mp found
    cases live
  · rw [if_neg cancelled] at found
    refine ⟨fun same => ?_, found⟩
    by_cases empty : session_token = []
    · rw [same, empty, named] at found
      cases found
    · exact cancelled ⟨same, empty⟩

theorem updatingSessions_find :
    (updatingSessions clock session_token sessions).sessionTokenTimers.find query =
      (quitSession session_token sessions).sessionTokenTimers.find query := by
  unfold updatingSessions
  have same : (activated clock session_token sessions).sessionTokenTimers =
      sessions.sessionTokenTimers := touchSession_timers session_token
  rw [quitSession_find, quitSession_find, same]

/-- The timers after an update: the one that was set, where its token had no entry, and those of
the other tokens. -/
theorem live_of_update (named : sessions.sessionTokenTimers.find [] = none)
    (found : (armSession session_token timer_details
      (updatingSessions clock session_token sessions)).sessionTokenTimers.find query = some details)
    (live : details.QuitFlag = false) :
    (query ≠ session_token ∧ sessions.sessionTokenTimers.find query = some details) ∨
      (query = session_token ∧ sessions.sessionTokenTimers.find session_token = none ∧
        details = timer_details) := by
  rw [armSession_find] at found
  split at found
  · next set =>
      cases found
      refine Or.inr ⟨set.1, ?_, rfl⟩
      have free := set.2.2
      rw [updatingSessions_find, quitSession_find, if_pos ⟨rfl, set.2.1⟩] at free
      exact Option.map_eq_none_iff.mp free
  · rw [updatingSessions_find] at found
    exact Or.inl (live_of_quitSession named found live)

theorem quitSession_named (named : sessions.sessionTokenTimers.find [] = none) :
    (quitSession session_token sessions).sessionTokenTimers.find [] = none := by
  rw [quitSession_find, named]
  split <;> rfl

theorem updatingSessions_named (named : sessions.sessionTokenTimers.find [] = none) :
    (updatingSessions clock session_token sessions).sessionTokenTimers.find [] = none := by
  rw [updatingSessions_find]
  exact quitSession_named named

theorem armSession_named (named : sessions.sessionTokenTimers.find [] = none) :
    (armSession session_token timer_details sessions).sessionTokenTimers.find [] = none := by
  rw [armSession_find, if_neg]
  · exact named
  · exact fun set => set.2.1 set.1.symm

end Live

/-- What an update leaves of the rest of the sessions. -/
theorem updatingSessions_active {clock : TimePoint} {sessions : SessionManager} :
    (updatingSessions clock session_token sessions).activeSessionToken = some session_token := by
  rw [updatingSessions, quitSession_eq]
  rfl

theorem updatingSessions_leases {clock : TimePoint} {sessions : SessionManager} :
    (updatingSessions clock session_token sessions).leasedSessionTokens =
      (sessions.touchSession clock session_token).leasedSessionTokens := by
  rw [updatingSessions, quitSession_eq]
  rfl

theorem armSession_leases {timer_details : TimerThreadDetails} {sessions : SessionManager} :
    (armSession session_token timer_details sessions).leasedSessionTokens =
      sessions.leasedSessionTokens := by
  rw [armSession_eq]

theorem armSession_active {timer_details : TimerThreadDetails} {sessions : SessionManager} :
    (armSession session_token timer_details sessions).activeSessionToken =
      sessions.activeSessionToken := by
  rw [armSession_eq]

theorem requests_activated {clock : TimePoint}
    (requests : Requests req session_token server.sessions) :
    Requests req session_token (activated clock session_token server.sessions) :=
  requests.of_leased ((activated_leased ..).mpr requests.leased)

/-- The request of an update is still one of its session when the timer is set. -/
theorem requests_updating {clock : TimePoint}
    (requests : Requests req session_token server.sessions) :
    Requests req session_token (updatingSessions clock session_token server.sessions) := by
  have active : Requests req session_token (activated clock session_token server.sessions) :=
    requests_activated requests
  refine active.of_leased ?_
  unfold Leased updatingSessions
  rw [quitSession_leased]
  exact active.leased

/-- An update that is accepted sets its timer unless the manager raises. -/
theorem served_update (requests : Requests req session_token server.sessions)
    (free : server.sessions.FreeFor session_token) :
    served host (.request req .postRunningUpdate) server =
      match processRequest host .success .POST URIRequestPath.RUNNING_UPDATE req.body
          server.manager with
      | .ok _ manager =>
        ⟨server.clock, armSession session_token (confirmationTimer server.clock)
          (updatingSessions server.clock session_token server.sessions), manager⟩
      | .error _ manager =>
        ⟨server.clock, updatingSessions server.clock session_token server.sessions, manager⟩ := by
  rw [served_request, handle, run_bind_of_ok (run_activate requests free), if_pos rfl]
  have cancelled : ∃ answer, (CancelSessionTokenTimerOnce req).run (does host)
      ⟨server.clock, activated server.clock session_token server.sessions, server.manager⟩ =
        .ok answer ⟨server.clock, updatingSessions server.clock session_token server.sessions,
          server.manager⟩ := run_cancel host (requests_activated requests)
  obtain ⟨answer, cancelled⟩ := cancelled
  rw [run_bind_of_ok cancelled]
  cases ran : FlexConfig.processRequest host .success .POST URIRequestPath.RUNNING_UPDATE req.body
      server.manager with
  | error reason manager =>
      have halted : (respond .success .POST URIRequestPath.RUNNING_UPDATE req).run
          (does host) ⟨server.clock,
            updatingSessions server.clock session_token server.sessions, server.manager⟩ =
          .error reason ⟨server.clock,
            updatingSessions server.clock session_token server.sessions, manager⟩ :=
        run_respond_of_error ran
      rw [run_bind_of_error halted]
      rfl
  | ok result manager =>
      have responded : ∃ response, (respond .success .POST URIRequestPath.RUNNING_UPDATE req).run
          (does host) ⟨server.clock,
            updatingSessions server.clock session_token server.sessions, server.manager⟩ =
          .ok response ⟨server.clock,
            updatingSessions server.clock session_token server.sessions, manager⟩ :=
        run_respond_of_ok ran
      obtain ⟨response, responded⟩ := responded
      rw [run_bind_of_ok responded]
      have set : (SetSessionTokenTimerOnce req .withdrawCandidate confirmationTimeoutSec).run
          (does host) ⟨server.clock,
            updatingSessions server.clock session_token server.sessions, manager⟩ =
          .ok (setAnswer session_token _) ⟨server.clock,
            armSession session_token (confirmationTimer server.clock) _, manager⟩ :=
        run_set (requests_updating requests) .withdrawCandidate confirmationTimeoutSec
      rw [run_bind_of_ok set]
      rfl

end Requests

section Checking

variable {session_token : Str}

theorem headerValue_bearer (session_token : Str) :
    headerValue (Header.Tokens.BEARER ++ ' ' :: session_token) =
      (readToken session_token).map (Header.Tokens.BEARER ++ ' ' :: ·) := by
  have prefixed : Header.Tokens.BEARER ++ ' ' :: session_token =
      (Header.Tokens.BEARER ++ [' ']) ++ session_token := by simp
  have seen : Text.c_str (Header.Tokens.BEARER ++ ' ' :: session_token) =
      Header.Tokens.BEARER ++ ' ' :: Text.c_str session_token := by
    rw [prefixed, Text.c_str_append_of_notMem (by decide)]
    simp
  have breaks : ∀ c ∈ ['\r', '\n'], (c ∈ Header.Tokens.BEARER ++ ' ' :: Text.c_str session_token ↔
      c ∈ Text.c_str session_token) := by
    intro c isBreak
    have apart : c ∉ Header.Tokens.BEARER ++ [' '] := by
      have each : (['\r', '\n'].all fun other => other ∉ Header.Tokens.BEARER ++ [' ']) = true := by
        decide
      exact of_decide_eq_true (List.all_eq_true.mp each c isBreak)
    rw [List.append_cons, List.mem_append, or_iff_right apart]
  unfold headerValue readToken
  rw [seen]
  by_cases broken : '\r' ∈ Text.c_str session_token ∨ '\n' ∈ Text.c_str session_token
  · rw [if_pos broken, if_pos (broken.imp (breaks '\r' (by decide)).mpr
      (breaks '\n' (by decide)).mpr)]
    rfl
  · rw [if_neg broken, if_neg fun other => broken (other.imp (breaks '\r' (by decide)).mp
      (breaks '\n' (by decide)).mp)]
    rfl

/-- What a header is read as is read as itself. -/
theorem readToken_read {token : Str} (read : readToken session_token = some token) :
    readToken token = some token := by
  unfold readToken at read ⊢
  split at read
  · cases read
  · next plain =>
      cases read
      rw [Text.c_str_of_notMem Text.nul_notMem_c_str, if_neg plain]

theorem headerToken_removalRequest {token : Str} (read : readToken session_token = some token) :
    headerToken (removalRequest session_token) = .ok token := by
  rw [headerToken, removalRequest, headerValue_bearer, read, Option.map_some, Option.getD_some,
    bearerToken, if_neg]
  · rfl
  · simp

theorem requests_removal {token : Str} (read : readToken session_token = some token)
    (leased : server.sessions.Leased token) :
    Requests (removalRequest session_token) token server.sessions := by
  unfold Requests
  rw [requestedSession_eq_ok]
  refine ⟨?_, headerToken_removalRequest read, leased⟩
  rw [removalRequest, headerValue_bearer, read]
  rfl

/-- A removal under a token that makes no header, or one of a session that is not leased, is
refused. -/
theorem removal_refused (removed : ∀ token, readToken session_token = some token →
    ¬ server.sessions.Leased token) :
    ∃ status, requestedSession (removalRequest session_token) server.sessions =
      .ok (.error status) := by
  unfold requestedSession
  cases read : readToken session_token with
  | none =>
      rw [removalRequest, headerValue_bearer, read]
      exact ⟨_, rfl⟩
  | some token =>
      have cut := headerToken_removalRequest read
      rw [headerToken, removalRequest, headerValue_bearer, read] at cut
      rw [removalRequest, headerValue_bearer, read]
      refine ⟨.INVALID_TOKEN, ?_⟩
      change bearerToken (Header.Tokens.BEARER ++ ' ' :: token) = .ok token at cut
      change (bearerToken (Header.Tokens.BEARER ++ ' ' :: token) >>= _) = _
      rw [cut]
      exact if_neg (removed token read)

/-- The callback for an expired session removes the session that its token's header is read as. -/
theorem run_removal (host : Host) (server : Server) (session_token : Str) :
    ∃ verdict, (RemoveSessionToken (removalRequest session_token)).run (does host) server =
      .ok verdict { server with
        sessions := removedByHeader server.clock session_token server.sessions } := by
  unfold RemoveSessionToken
  by_cases removes : ∃ token, readToken session_token = some token ∧ server.sessions.Leased token
  · obtain ⟨token, read, leased⟩ := removes
    have requests := requests_removal read leased
    rw [run_bind_of_ok (run_checkSessionToken requests), if_pos rfl, run_ask, removedByHeader, read]
    dsimp only
    rw [if_pos leased]
    exact ⟨_, onSessions_of_ok (releaseSessionToken_of_token requests.cut)⟩
  · have nothing : ∀ token, readToken session_token = some token →
        ¬ server.sessions.Leased token := fun token read leased => removes ⟨token, read, leased⟩
    obtain ⟨status, refused⟩ := removal_refused nothing
    have checked : (ask (.checkSessionToken (removalRequest session_token))).run (does host)
        server = .ok ⟨false, status, none⟩ server :=
      (congrFun (run_ask _) server).trans (onSessions_of_ok (CheckSessionToken_of_refused refused))
    have unchanged : removedByHeader server.clock session_token server.sessions =
        server.sessions := by
      unfold removedByHeader
      split
      · rfl
      · next token read => exact if_neg (nothing token read)
    rw [run_bind_of_ok checked, if_neg Bool.false_ne_true, unchanged]
    exact ⟨_, rfl⟩

theorem run_expire (host : Host) (server : Server) (session_token : Str) :
    (expireSession session_token).run (does host) server =
      .ok PUnit.unit { server with
        sessions := expiredSession server.clock session_token server.sessions } := by
  obtain ⟨verdict, removed⟩ := run_removal host server session_token
  have called : (Routine.forEach (fun timeout_cb => timeout_cb session_token)
      sessionTimeoutCallbacks).run (does host) server = .ok PUnit.unit _ :=
    (run_bind_of_ok ((run_bind_of_ok removed).trans rfl)).trans rfl
  unfold expireSession
  rw [run_bind_of_ok called, run_ask]
  rfl

theorem served_expire (host : Host) (server : Server) (session_token : Str) :
    served host (.expire session_token) server = { server with
      sessions := expiredSession server.clock session_token server.sessions } := by
  rw [served, Call.task, run_expire]
  rfl

/-- A firing that does not end the process has withdrawn the candidate. -/
theorem served_fire (goesOn : Call.GoesOn host server (.fire session_token)) :
    served host (.fire session_token) server =
      { server with
        manager := final (processRequest host .success .DEL URIRequestPath.CANDIDATE []
          server.manager)
        sessions := firedSessions session_token server.sessions } := by
  unfold Call.GoesOn at goesOn
  unfold served
  have unfolded : (Call.fire session_token).task.run (does host) server =
      fireTimer host session_token server := congrFun (run_ask _) server
  rw [unfolded] at goesOn ⊢
  rcases fireTimer_cases host session_token server with
    ⟨_, _, result, manager, withdrawn, ran⟩ | ⟨_, _, reason, manager, _, ran⟩ | ⟨_, ran⟩
  · rw [ran, withdrawn]
    rfl
  · rw [ran] at goesOn
    cases reason with
    | raised =>
        obtain ⟨req, endpoint, impossible⟩ := goesOn
        cases impossible
    | rejected | exited | crashed => exact goesOn.elim
  · rw [ran] at goesOn
    exact goesOn.elim

theorem touchSession_find (clock : TimePoint) {query : Str} (differs : query ≠ session_token)
    (sessions : SessionManager) :
    (sessions.touchSession clock session_token).leasedSessionTokens.find query =
      sessions.leasedSessionTokens.find query := by
  unfold touchSession
  split
  · rfl
  · exact (SortedMap.find_insert ..).trans (if_neg differs)

/-- The lease of a session whose request is noted. -/
theorem touchSession_find_self (clock : TimePoint) (sessions : SessionManager) :
    (sessions.touchSession clock session_token).leasedSessionTokens.find session_token =
      (sessions.leasedSessionTokens.find session_token).map fun details =>
        { details with LastRequestAt := clock } := by
  unfold touchSession
  split
  · next missing => rw [missing]; rfl
  · next details found => rw [found]; exact (SortedMap.find_insert ..).trans (if_pos rfl)

/-- What a removal by a header comes to. -/
theorem removedByHeader_cases (clock : TimePoint) (session_token : Str) (sessions : SessionManager) :
    (removedByHeader clock session_token sessions = sessions ∧
      ∀ token, readToken session_token = some token → ¬ sessions.Leased token) ∨
    ∃ token, readToken session_token = some token ∧ sessions.Leased token ∧
      removedByHeader clock session_token sessions =
        (sessions.touchSession clock token).withoutSession token := by
  unfold removedByHeader
  cases read : readToken session_token with
  | none =>
      refine .inl ⟨rfl, fun token impossible => ?_⟩
      cases impossible
  | some token =>
      dsimp only
      by_cases leased : sessions.Leased token
      · rw [if_pos leased]
        exact .inr ⟨token, rfl, leased, rfl⟩
      · rw [if_neg leased]
        refine .inl ⟨rfl, fun other same => ?_⟩
        cases same
        exact leased

/-- An expiry ends the lease of the session and that of the token its header is read as, and
leaves those of the others. -/
theorem expiredSession_find (clock : TimePoint) (query : Str) (sessions : SessionManager) :
    (expiredSession clock session_token sessions).leasedSessionTokens.find query =
      if Ends session_token query then none else sessions.leasedSessionTokens.find query := by
  refine (SortedMap.find_erase ..).trans ?_
  by_cases same : query = session_token
  · rw [if_pos same, if_pos (.inl same)]
  · rw [if_neg same]
    rcases removedByHeader_cases clock session_token sessions with
      ⟨unchanged, nothing⟩ | ⟨token, read, _, removed⟩
    · rw [unchanged]
      split
      · next ends =>
          have free := nothing query (ends.resolve_left same)
          rw [leased_iff, not_exists] at free
          exact Option.eq_none_iff_forall_ne_some.mpr free
      · rfl
    · rw [removed]
      refine (SortedMap.find_erase ..).trans ?_
      by_cases isRead : query = token
      · rw [if_pos isRead, if_pos (.inr (read.trans (congrArg some isRead.symm)))]
      · rw [if_neg isRead, touchSession_find clock isRead, if_neg]
        rintro (own | other)
        · exact same own
        · exact isRead (Option.some.inj (other.symm.trans read))

theorem expiredSession_timers (clock : TimePoint) (sessions : SessionManager) :
    (expiredSession clock session_token sessions).sessionTokenTimers =
      sessions.sessionTokenTimers := by
  unfold expiredSession
  dsimp only
  rcases removedByHeader_cases clock session_token sessions with
    ⟨unchanged, _⟩ | ⟨token, _, _, removed⟩
  · rw [unchanged]
  · rw [removed]
    exact touchSession_timers token

theorem touchSession_timeout (clock : TimePoint) (sessions : SessionManager) :
    (sessions.touchSession clock session_token).sessionTimeoutSec =
      sessions.sessionTimeoutSec := by
  unfold touchSession
  split <;> rfl

theorem updatingSessions_timeout (clock : TimePoint) (sessions : SessionManager) :
    (updatingSessions clock session_token sessions).sessionTimeoutSec =
      sessions.sessionTimeoutSec := by
  rw [updatingSessions, quitSession_eq]
  exact touchSession_timeout clock sessions

theorem armSession_timeout (timer_details : TimerThreadDetails) (sessions : SessionManager) :
    (armSession session_token timer_details sessions).sessionTimeoutSec =
      sessions.sessionTimeoutSec := by
  rw [armSession_eq]

theorem expiredSession_timeout (clock : TimePoint) (sessions : SessionManager) :
    (expiredSession clock session_token sessions).sessionTimeoutSec =
      sessions.sessionTimeoutSec := by
  unfold expiredSession
  dsimp only
  rcases removedByHeader_cases clock session_token sessions with
    ⟨unchanged, _⟩ | ⟨token, _, _, removed⟩
  · rw [unchanged]
  · rw [removed]
    exact touchSession_timeout clock sessions

/-- The slot of the active session is freed where the header is read as its token and the session
is leased. -/
theorem expiredSession_active_iff (clock : TimePoint) (sessions : SessionManager) {token : Str} :
    (expiredSession clock session_token sessions).activeSessionToken = some token ↔
      sessions.activeSessionToken = some token ∧
        ¬ (sessions.Leased token ∧ readToken session_token = some token) := by
  unfold expiredSession
  dsimp only
  rcases removedByHeader_cases clock session_token sessions with
    ⟨unchanged, nothing⟩ | ⟨other, read, leased, removed⟩
  · rw [unchanged]
    exact (and_iff_left fun both => nothing token both.2 both.1).symm
  · rw [removed, withoutSession_active, touchSession_active, and_comm, and_congr_right_iff]
    intro _
    rw [read, Option.some.injEq]
    refine ⟨fun differs both => differs both.2.symm, fun kept same => kept ⟨same ▸ leased, same.symm⟩⟩

/-- An expiry makes no session active. -/
theorem expiredSession_active {clock : TimePoint} {sessions : SessionManager} {token : Str}
    (active : (expiredSession clock session_token sessions).activeSessionToken = some token) :
    sessions.activeSessionToken = some token :=
  ((expiredSession_active_iff clock sessions).mp active).1

theorem expiredSession_leased {clock : TimePoint} {sessions : SessionManager} {token : Str} :
    (expiredSession clock session_token sessions).Leased token ↔
      ¬ Ends session_token token ∧ sessions.Leased token := by
  unfold Leased
  rw [expiredSession_find]
  by_cases ends : Ends session_token token <;> simp [ends]

/-- What is live after an entry was erased was live before. -/
theorem find_of_erased {timers : SortedMap Str TimerThreadDetails} {token query : Str}
    {details : TimerThreadDetails} (found : (timers.erase token).find query = some details) :
    timers.find query = some details := by
  rw [SortedMap.find_erase] at found
  split at found
  · cases found
  · exact found

theorem erased_named {timers : SortedMap Str TimerThreadDetails} {token : Str}
    (named : timers.find [] = none) : (timers.erase token).find [] = none := by
  rw [SortedMap.find_erase, named]
  split <;> rfl

theorem step_of_ok {call : Call} {next : Server} (comes : call.Comes server)
    (ran : call.task.run (does host) server = .ok PUnit.unit next) : Step host server call next := by
  refine ⟨comes, ?_, ?_⟩
  · rw [Call.GoesOn, ran]
    exact trivial
  · rw [served, ran]
    rfl

/-- A session whose lease was ended by the header of another one. -/
def EndedBefore (server : Server) (token : Str) : Prop :=
  ¬ server.sessions.Leased token ∧ readToken token = some token

/-- The end of a lease that was ended before changes nothing. -/
theorem expiredSession_endedBefore {token : Str} (ended : EndedBefore server token) :
    expiredSession server.clock token server.sessions = server.sessions := by
  have absent : server.sessions.leasedSessionTokens.find token = none := by
    refine Option.eq_none_iff_forall_ne_some.mpr fun details found => ended.1 ?_
    exact leased_iff.mpr ⟨details, found⟩
  unfold expiredSession removedByHeader
  rw [ended.2]
  dsimp only
  rw [if_neg ended.1, SortedMap.erase_of_find_eq_none absent]

/-- What ends an expired session leaves another one expired, or ends its lease, too. -/
theorem expired_of_expire {token : Str} (differs : token ≠ session_token)
    (expired : Expired server token ∨ EndedBefore server token) :
    let after := { server with
      sessions := expiredSession server.clock session_token server.sessions }
    Expired after token ∨ EndedBefore after token := by
  by_cases ends : Ends session_token token
  · refine .inr ⟨fun leased => (expiredSession_leased.mp leased).1 ends, ?_⟩
    exact readToken_read (ends.resolve_left differs)
  · rcases expired with ⟨details, found, late⟩ | ⟨free, read⟩
    · refine .inl ⟨details, ?_, ?_⟩
      · rw [expiredSession_find, if_neg ends]
        exact found
      · rw [expiredSession_timeout]
        exact late
    · exact .inr ⟨fun leased => free (expiredSession_leased.mp leased).2, read⟩

/-- A timer with an entry that passes a test. -/
def HasTimer (test : TimerThreadDetails → Bool) (server : Server) (session_token : Str) : Prop :=
  ∃ details, server.sessions.sessionTokenTimers.find session_token = some details ∧
    test details = true

theorem hasTimer_of_erased {test : TimerThreadDetails → Bool} {token : Str} {next : Server}
    (differs : token ≠ session_token)
    (erased : next.sessions.sessionTokenTimers =
      server.sessions.sessionTokenTimers.erase session_token)
    (has : HasTimer test server token) : HasTimer test next token := by
  obtain ⟨details, found, passes⟩ := has
  refine ⟨details, ?_, passes⟩
  rw [erased, SortedMap.find_erase, if_neg differs]
  exact found

/-- The timer callbacks leave the other timers alone. -/
theorem fire_eq_ok {next : Server} (fired : fireTimer host session_token server = .ok PUnit.unit next) :
    next.clock = server.clock ∧
      next.sessions.sessionTokenTimers = server.sessions.sessionTokenTimers.erase session_token := by
  rcases fireTimer_cases host session_token server with
    ⟨_, _, _, _, _, ran⟩ | ⟨_, _, _, _, _, ran⟩ | ⟨_, ran⟩
  · cases ran.symm.trans fired
    exact ⟨rfl, rfl⟩
  · cases ran.symm.trans fired
  · cases ran.symm.trans fired

/-- A round of the checking thread ends expired sessions, drops timers that were quit and fires
those that are due, one call after another. -/
theorem round_of_checkExpiration {next : Server}
    (ran : checkExpiration.run (does host) server = .ok PUnit.unit next) :
    Relation.ReflTransGen (fun before after => ∃ call, Step host before call after) server next := by
  have read : (ask .now).run (does host) server = .ok server.clock server := rfl
  have listed : (ask (.expiredSessions server.clock)).run (does host) server = .ok _ server :=
    (congrFun (run_ask _) server).trans
      (onSessions_of_ok (expiredSessions_eq server.clock server.sessions))
  rw [checkExpiration, run_bind_of_ok read, run_bind_of_ok listed] at ran
  rw [Routine.run_bind] at ran
  obtain ⟨_, expiries, ended, ran⟩ := bind_eq_ok.mp ran
  have swept : (ask (.sweepTimers server.clock)).run (does host) expiries = .ok _ expiries :=
    (congrFun (run_ask _) expiries).trans
      (onSessions_of_ok (sweepTimers_eq server.clock expiries.sessions))
  rw [run_bind_of_ok swept, Routine.run_bind] at ran
  obtain ⟨_, drops, dropped, ran⟩ := bind_eq_ok.mp ran
  -- the clock stands still during a round, so what was due at its beginning still is
  have first : Relation.ReflTransGen (fun before after => ∃ call, Step host before call after)
      server expiries ∧ expiries.clock = server.clock := by
    refine Routine.steps_of_forEach
      (fun token now => Expired now token ∨ EndedBefore now token)
      (fun now => now.clock = server.clock) ?_
      (List.nodup_reverse.mpr (SortedMap.keysWhere_nodup ..)) ?_ rfl ended
    · intro token before after turn endedOne
      have outcome := (run_expire host before token).symm.trans endedOne
      cases outcome
      refine ⟨?_, id, fun other differs => expired_of_expire differs⟩
      rcases turn with expired | before_it
      · exact .single ⟨.expire token, step_of_ok expired endedOne⟩
      · rw [expiredSession_endedBefore before_it]
    · intro token member
      obtain ⟨details, found, late⟩ := SortedMap.mem_keysWhere.mp (List.mem_reverse.mp member)
      exact .inl ⟨details, found, of_decide_eq_true late⟩
  have second : Relation.ReflTransGen (fun before after => ∃ call, Step host before call after)
      expiries drops ∧ drops.clock = server.clock ∧
        ∀ token ∈ (expiries.sessions.sessionTokenTimers.keysWhere (Due server.clock)).reverse,
          HasTimer (Due server.clock) drops token := by
    refine Routine.steps_of_forEach
      (fun token now => HasTimer TimerThreadDetails.QuitFlag now token)
      (fun now => now.clock = server.clock ∧
        ∀ token ∈ (expiries.sessions.sessionTokenTimers.keysWhere (Due server.clock)).reverse,
          HasTimer (Due server.clock) now token) ?_
      (List.nodup_reverse.mpr (SortedMap.keysWhere_nodup ..)) ?_ ⟨first.2, ?_⟩ dropped
    · intro token before after quit droppedOne
      have outcome : after = { before with
          sessions := { before.sessions with
            sessionTokenTimers := before.sessions.sessionTokenTimers.erase token } } := by
        cases (congrFun (run_ask _) before).symm.trans droppedOne
        rfl
      subst outcome
      refine ⟨.single ⟨.dropTimer token, step_of_ok quit droppedOne⟩, fun ⟨same, due⟩ => ⟨same, ?_⟩,
        fun other differs => hasTimer_of_erased differs rfl⟩
      intro other member
      refine hasTimer_of_erased (fun equal => ?_) rfl (due other member)
      obtain ⟨details, found, isQuit⟩ := quit
      obtain ⟨sameDetails, sameFound, isDue⟩ := due other member
      rw [equal, found] at sameFound
      cases sameFound
      rw [Due, isQuit] at isDue
      cases isDue
    · intro token member
      exact SortedMap.mem_keysWhere.mp (List.mem_reverse.mp member)
    · intro token member
      exact SortedMap.mem_keysWhere.mp (List.mem_reverse.mp member)
  have third : Relation.ReflTransGen (fun before after => ∃ call, Step host before call after)
      drops next ∧ True := by
    refine Routine.steps_of_forEach
      (fun token now => now.clock = server.clock ∧ HasTimer (Due server.clock) now token)
      (fun _ => True) ?_ (List.nodup_reverse.mpr (SortedMap.keysWhere_nodup ..))
      (fun token member => ⟨second.2.1, second.2.2 token member⟩) trivial ran
    intro token before after due firedOne
    have fired := (congrFun (run_ask _) before).symm.trans firedOne
    obtain ⟨sameClock, erased⟩ := fire_eq_ok fired
    refine ⟨.single ⟨.fire token, step_of_ok ?_ firedOne⟩, id, fun other differs still => ?_⟩
    · change ∃ details, _ ∧ Due before.clock details = true
      rw [due.1]
      exact due.2
    · exact ⟨sameClock.trans still.1, hasTimer_of_erased differs erased still.2⟩
  exact first.1.trans (second.1.trans third.1)

end Checking

section Outcomes

/-- What a call can do. -/
inductive Outcome (host : Host) (before : Server) : Call → Server → Prop where
  | conflict {req : Request} (leased : before.sessions.Leased req.body) :
      Outcome host before (.request req .postSessionToken) before
  | registered {req : Request} (free : ¬ before.sessions.Leased req.body) :
      Outcome host before (.request req .postSessionToken) { before with
        sessions := { before.sessions with
          leasedSessionTokens :=
            before.sessions.leasedSessionTokens.insert req.body ⟨before.clock, before.clock⟩ } }
  | refused {req : Request} {endpoint : Endpoint} (other : endpoint ≠ .postSessionToken)
      (refused : ∀ token, ¬ Accepts before req endpoint token) :
      Outcome host before (.request req endpoint) before
  | removed {req : Request} {token : Str} (requests : Requests req token before.sessions) :
      Outcome host before (.request req .deleteSessionToken) { before with
        sessions := (before.sessions.touchSession before.clock token).withoutSession token }
  | read {req : Request} {token : Str} (accepts : Accepts before req .getCandidate token) :
      Outcome host before (.request req .getCandidate) before
  | noted {req : Request} {token : Str} (requests : Requests req token before.sessions)
      (taken : ¬ before.sessions.FreeFor token) :
      Outcome host before (.request req .postRunningUpdate) { before with
        sessions := before.sessions.touchSession before.clock token }
  | updated {req : Request} {token : Str} (requests : Requests req token before.sessions)
      (free : before.sessions.FreeFor token) {result : StatusCode × Str} {manager : Manager}
      (ran : processRequest host .success .POST URIRequestPath.RUNNING_UPDATE req.body
        before.manager = .ok result manager) :
      Outcome host before (.request req .postRunningUpdate) ⟨before.clock,
        armSession token (confirmationTimer before.clock)
          (updatingSessions before.clock token before.sessions), manager⟩
  | updateRaised {req : Request} {token : Str} (requests : Requests req token before.sessions)
      (free : before.sessions.FreeFor token) {reason : Halt} {manager : Manager}
      (halted : processRequest host .success .POST URIRequestPath.RUNNING_UPDATE req.body
        before.manager = .error reason manager) :
      Outcome host before (.request req .postRunningUpdate) ⟨before.clock,
        updatingSessions before.clock token before.sessions, manager⟩
  | concluded {req : Request} {endpoint : Endpoint} {token : Str} {files : FileOutcome}
      {method : Method} (concluding : Concluding endpoint files method)
      (requests : Requests req token before.sessions)
      (active : before.sessions.activeSessionToken = some token) :
      Outcome host before (.request req endpoint) { before with
        sessions := quitSession token before.sessions
        manager := final (processRequest host files method URIRequestPath.CANDIDATE req.body
          before.manager) }
  | expired {token : Str} (expired : Expired before token) :
      Outcome host before (.expire token) { before with
        sessions := expiredSession before.clock token before.sessions }
  | dropped {token : Str} (quit : HasTimer TimerThreadDetails.QuitFlag before token) :
      Outcome host before (.dropTimer token) { before with
        sessions := { before.sessions with
          sessionTokenTimers := before.sessions.sessionTokenTimers.erase token } }
  | fired {token : Str} (due : HasTimer (Due before.clock) before token) :
      Outcome host before (.fire token) { before with
        manager := final (processRequest host .success .DEL URIRequestPath.CANDIDATE []
          before.manager)
        sessions := firedSessions token before.sessions }
  | waited {duration : Nat} :
      Outcome host before (.wait duration) { before with clock := before.clock + duration }

theorem outcome_of_conclude {files : FileOutcome} {method : Method} {endpoint : Endpoint}
    (concluding : Concluding endpoint files method) :
    Outcome host server (.request req endpoint) (served host (.request req endpoint) server) := by
  by_cases accepted : ∃ token, Requests req token server.sessions ∧
      server.sessions.activeSessionToken = some token
  · obtain ⟨token, requests, active⟩ := accepted
    rw [served_conclude concluding requests active]
    exact .concluded concluding requests active
  · have refused : ∀ token, ¬ Accepts server req endpoint token := by
      cases endpoint with
      | putCandidate | deleteCandidate => exact not_exists.mp accepted
      | _ => exact concluding.elim
    rw [served_conclude_of_refused concluding refused]
    refine .refused (fun same => ?_) refused
    rw [same] at concluding
    exact concluding

theorem outcome_of_update : Outcome host server (.request req .postRunningUpdate)
    (served host (.request req .postRunningUpdate) server) := by
  by_cases requested : ∃ token, Requests req token server.sessions
  · obtain ⟨token, requests⟩ := requested
    by_cases free : server.sessions.FreeFor token
    · rw [served_update requests free]
      cases ran : processRequest host .success .POST URIRequestPath.RUNNING_UPDATE req.body
          server.manager with
      | ok result manager => exact .updated requests free ran
      | error reason manager => exact .updateRaised requests free ran
    · rw [served_update_of_taken requests free]
      exact .noted requests free
  · rw [served_update_of_refused (not_exists.mp requested)]
    refine .refused Endpoint.noConfusion fun token accepts => ?_
    exact requested ⟨token, accepts.1⟩

/-- Every call has one of the outcomes. -/
theorem outcome_of_step {call : Call} {after : Server} (step : Step host server call after) :
    Outcome host server call after := by
  obtain ⟨comes, goesOn, rfl⟩ := step
  cases call with
  | request req endpoint =>
      cases endpoint with
      | postSessionToken =>
          rw [served_postSessionToken]
          by_cases leased : server.sessions.Leased req.body
          · rw [if_pos leased]
            exact .conflict leased
          · rw [if_neg leased]
            exact .registered leased
      | deleteSessionToken =>
          by_cases requested : ∃ token, Requests req token server.sessions
          · obtain ⟨token, requests⟩ := requested
            rw [served_deleteSessionToken requests]
            exact .removed requests
          · rw [served_deleteSessionToken_of_refused (not_exists.mp requested)]
            exact .refused Endpoint.noConfusion (not_exists.mp requested)
      | getRunning =>
          rw [served_getRunning]
          exact .refused Endpoint.noConfusion fun _ => id
      | postRunningDiff =>
          rw [served_postRunningDiff]
          exact .refused Endpoint.noConfusion fun _ => id
      | getCandidate =>
          rw [served_getCandidate]
          by_cases accepted : ∃ token, Accepts server req .getCandidate token
          · obtain ⟨token, accepts⟩ := accepted
            exact .read accepts
          · exact .refused Endpoint.noConfusion (not_exists.mp accepted)
      | postRunningUpdate => exact outcome_of_update
      | putCandidate files => exact outcome_of_conclude ⟨rfl, rfl⟩
      | deleteCandidate => exact outcome_of_conclude ⟨rfl, rfl⟩
  | expire token =>
      rw [served_expire]
      exact .expired comes
  | dropTimer token => exact .dropped comes
  | fire token =>
      rw [served_fire goesOn]
      exact .fired comes
  | wait duration => exact .waited

end Outcomes

section Sequences

instance (token : Str) : Decidable (Expired server token) :=
  inferInstanceAs (Decidable (∃ details ∈ server.sessions.leasedSessionTokens.find token, _))

instance (call : Call) : Decidable (call.Comes server) :=
  match call with
  | .expire token => inferInstanceAs (Decidable (Expired server token))
  | .dropTimer token =>
    inferInstanceAs (Decidable (∃ details ∈ server.sessions.sessionTokenTimers.find token, _))
  | .fire token =>
    inferInstanceAs (Decidable (∃ details ∈ server.sessions.sessionTokenTimers.find token, _))
  | .request _ _ | .wait _ => isTrue trivial

/-- Whether the server goes on after a call. -/
def Call.goesOn (host : Host) (server : Server) (call : Call) : Bool :=
  match call.task.run (does host) server, call with
  | .ok _ _, _ => true
  | .error .raised _, .request _ _ => true
  | .error _ _, _ => false

theorem Call.goesOn_iff (call : Call) :
    call.goesOn host server = true ↔ call.GoesOn host server := by
  unfold goesOn GoesOn
  cases call.task.run (does host) server with
  | ok value next => exact iff_of_true rfl trivial
  | error reason next =>
      cases reason with
      | raised =>
          cases call with
          | request req endpoint => exact iff_of_true rfl ⟨req, endpoint, rfl⟩
          | expire | dropTimer | fire | wait =>
              refine iff_of_false Bool.false_ne_true fun ⟨_, _, impossible⟩ => ?_
              cases impossible
      | rejected | exited | crashed => exact iff_of_false Bool.false_ne_true id

/-- The server after a call, where it can come and the server goes on. -/
def serve (host : Host) (before : Server) (call : Call) : Option Server :=
  if call.Comes before ∧ call.goesOn host before = true then some (served host call before)
  else none

theorem step_of_serve {call : Call} {after : Server} (goes : serve host server call = some after) :
    Step host server call after := by
  unfold serve at goes
  split at goes
  · next both =>
      cases goes
      exact ⟨both.1, (Call.goesOn_iff call).mp both.2, rfl⟩
  · cases goes

end Sequences

end FlexConfig.Server
