import FlexConfig.Server.Handlers

/-! # The threads of the server

Every connection has a thread that runs the handler of one request after another, and one
thread checks for expiration round after round. A step of the server lets one of them make
its next call, or lets time pass. An exception ends the request it is raised in; in the
checking thread it ends the process.
-/

namespace FlexConfig

open Procedure HTTP Concurrent

/-- An event is the start of the server: a manager that has loaded its configuration, no session
and no timer. -/
structure Server.Started (host : Host) (server : Server) : Prop where
  loaded : Manager.Loaded host.env server.manager
  sessions : server.sessions = ⟨360, .empty, none, .empty⟩

namespace Server

inductive Worker where
  | checking
  | connection (number : Nat)
  | clock
  deriving DecidableEq

/-- What a thread may start when it is idle. -/
def MayStart : Worker → Task PUnit → Prop
  | .checking, task => task = checkExpiration
  | .connection _, task =>
    ∃ req endpoint, task = handle req endpoint >>= fun _ => pure PUnit.unit
  | .clock, task => ∃ duration, task = ask (.passTime duration)

/-- The halts that end no more than the request in which they occur. -/
def Survives : Worker → Halt → Prop
  | .connection _, reason => reason = .raised
  | _, _ => False

/-- The server with its threads. -/
abbrev Threads := Pool Worker Op Op.Answer Server

/-- What happens in a step. -/
abbrev Happening := Event Worker Op Op.Answer

/-- One step of one thread. -/
def ThreadStep (host : Host) : Threads → Happening → Threads → Prop :=
  Pool.Step MayStart (does host) Survives

/-- The server before its first step: all threads are idle. -/
structure ThreadsStarted (host : Host) (threads : Threads) : Prop where
  started : Server.Started host threads.shared
  idle : ∀ worker, threads.threads worker = .done ⟨⟩

variable {host : Host}

/-- A critical section of the session manager leaves the rest of the server alone. -/
theorem final_onSessions {α : Type} (body : Sessioning α) (server : Server) :
    final (onSessions body server) =
      { server with sessions := final (body server.sessions) } := by
  unfold onSessions focus
  cases body server.sessions with
  | ok value sessions => rfl
  | error reason sessions => rfl

theorem onSessions_eq_ok {α : Type} {body : Sessioning α} {server next : Server} {value : α} :
    onSessions body server = .ok value next ↔
      ∃ sessions, body server.sessions = .ok value sessions ∧
        next = { server with sessions := sessions } := focus_eq_ok

theorem onSessions_eq_error {α : Type} {body : Sessioning α} {server next : Server}
    {reason : Halt} :
    onSessions body server = .error reason next ↔
      ∃ sessions, body server.sessions = .error reason sessions ∧
        next = { server with sessions := sessions } := focus_eq_error

theorem onManager_of_ok {α : Type} {body : Managing α} {server : Server} {manager : Manager}
    {value : α} (ran : body server.manager = .ok value manager) :
    onManager body server = .ok value { server with manager := manager } :=
  focus_eq_ok.mpr ⟨manager, ran, rfl⟩

theorem onManager_of_error {α : Type} {body : Managing α} {server : Server} {manager : Manager}
    {reason : Halt} (ran : body server.manager = .error reason manager) :
    onManager body server = .error reason { server with manager := manager } :=
  focus_eq_error.mpr ⟨manager, ran, rfl⟩

/-- An operation of the manager leaves the sessions alone. -/
theorem onManager_keeps_sessions {α : Type} (body : Managing α) :
    Keeps Server.sessions (onManager body) := by
  intro server
  unfold onManager focus
  cases body server.manager with
  | ok value manager => rfl
  | error reason manager => rfl

/-- The sessions after a timer has fired. -/
def firedSessions (session_token : Str) (sessions : SessionManager) : SessionManager :=
  { sessions.RemoveActiveSessionToken session_token with
    sessionTokenTimers := sessions.sessionTokenTimers.erase session_token }

/-- Firing a timer withdraws the candidate, frees the slot of the active session and drops the
timer, or halts in the withdrawal. -/
theorem fireTimer_cases (host : Host) (session_token : Str) (server : Server) :
    (∃ details, server.sessions.sessionTokenTimers.find session_token = some details ∧
      ∃ result manager,
        processRequest host .success .DEL URIRequestPath.CANDIDATE [] server.manager =
            .ok result manager ∧
          fireTimer host session_token server =
            .ok ⟨⟩ { server with
              manager := manager
              sessions := firedSessions session_token server.sessions }) ∨
    (∃ details, server.sessions.sessionTokenTimers.find session_token = some details ∧
      ∃ reason manager,
        processRequest host .success .DEL URIRequestPath.CANDIDATE [] server.manager =
            .error reason manager ∧
          fireTimer host session_token server = .error reason { server with manager := manager }) ∨
    (server.sessions.sessionTokenTimers.find session_token = none ∧
      fireTimer host session_token server = .error .crashed server) := by
  unfold fireTimer
  rw [get_bind]
  cases found : server.sessions.sessionTokenTimers.find session_token with
  | none => exact Or.inr (Or.inr ⟨rfl, rfl⟩)
  | some details =>
      cases callback : details.TimerCB with
      | withdrawCandidate =>
          cases withdrawn : processRequest host .success .DEL URIRequestPath.CANDIDATE []
              server.manager with
          | ok result manager =>
              refine Or.inl ⟨details, rfl, result, manager, rfl, ?_⟩
              have asked : onManager (processRequest host .success .DEL URIRequestPath.CANDIDATE [])
                  server = .ok result { server with manager := manager } :=
                onManager_of_ok withdrawn
              have ran : runTimerCB host session_token details.TimerCB server =
                  .ok ⟨⟩ { server with
                    manager := manager
                    sessions := server.sessions.RemoveActiveSessionToken session_token } := by
                rw [callback]
                exact bind_of_ok asked
              refine (bind_of_ok ran).trans ?_
              unfold firedSessions
              rw [← SessionManager.RemoveActiveSessionToken_timers session_token]
              rfl
          | error reason manager =>
              refine Or.inr (Or.inl ⟨details, rfl, reason, manager, rfl, ?_⟩)
              have asked : onManager (processRequest host .success .DEL URIRequestPath.CANDIDATE [])
                  server = .error reason { server with manager := manager } :=
                onManager_of_error withdrawn
              have ran : runTimerCB host session_token details.TimerCB server =
                  .error reason { server with manager := manager } := by
                rw [callback]
                exact bind_of_error asked
              exact bind_of_error ran

/-- What an operation leaves of the server, whether it returned or not. -/
def after (host : Host) (op : Op) (server : Server) : Server := final (does host op server)

section After

open SessionManager

variable (host : Host) (server : Server)

theorem after_registerSessionToken (req : Request) :
    after host (.registerSessionToken req) server =
      { server with
        sessions := final (SessionManager.RegisterSessionToken server.clock req server.sessions) } :=
  final_onSessions (SessionManager.RegisterSessionToken server.clock req) server

theorem after_checkSessionToken (req : Request) :
    after host (.checkSessionToken req) server =
      { server with
        sessions := final (SessionManager.CheckSessionToken server.clock req server.sessions) } :=
  final_onSessions (SessionManager.CheckSessionToken server.clock req) server

theorem after_activateSessionToken (req : Request) :
    after host (.activateSessionToken req) server =
      { server with
        sessions := final (SessionManager.activateSessionToken req server.sessions) } :=
  final_onSessions (SessionManager.activateSessionToken req) server

theorem after_checkActiveSessionToken (req : Request) :
    after host (.checkActiveSessionToken req) server =
      { server with
        sessions := final (SessionManager.CheckActiveSessionToken req server.sessions) } :=
  final_onSessions (SessionManager.CheckActiveSessionToken req) server

theorem after_releaseSessionToken (req : Request) :
    after host (.releaseSessionToken req) server =
      { server with
        sessions := final (SessionManager.releaseSessionToken req server.sessions) } :=
  final_onSessions (SessionManager.releaseSessionToken req) server

theorem after_getSessionToken (req : Request) :
    after host (.getSessionToken req) server =
      { server with
        sessions := final (SessionManager.GetSessionToken req server.sessions) } :=
  final_onSessions (SessionManager.GetSessionToken req) server

theorem after_armTimer (session_token : Str) (details : TimerThreadDetails) :
    after host (.armTimer session_token details) server =
      { server with
        sessions := final (SessionManager.armTimer session_token details server.sessions) } :=
  final_onSessions (SessionManager.armTimer session_token details) server

theorem after_quitTimer (session_token : Str) :
    after host (.quitTimer session_token) server =
      { server with
        sessions := final (SessionManager.quitTimer session_token server.sessions) } :=
  final_onSessions (SessionManager.quitTimer session_token) server

theorem after_processRequest_sessions (files : FileOutcome) (method : Method)
    (path request_data : Str) :
    (after host (.processRequest files method path request_data) server).sessions =
      server.sessions :=
  onManager_keeps_sessions (FlexConfig.processRequest host files method path request_data) server

/-- Firing a timer leaves the sessions of a fired timer, or halts and leaves them as they were. -/
theorem after_fireTimer_sessions (session_token : Str) :
    (after host (.fireTimer session_token) server).sessions =
        firedSessions session_token server.sessions ∨
      (after host (.fireTimer session_token) server).sessions = server.sessions := by
  have unfolded : after host (.fireTimer session_token) server =
      final (fireTimer host session_token server) := rfl
  rw [unfolded]
  rcases fireTimer_cases host session_token server with
    ⟨_, _, _, _, _, ran⟩ | ⟨_, _, _, _, _, ran⟩ | ⟨_, ran⟩
  · rw [ran, final_ok]
    exact Or.inl rfl
  · rw [ran, final_error]
    exact Or.inr rfl
  · rw [ran, final_error]
    exact Or.inr rfl

/-- What an operation leaves of the sessions, by the ways to change them. -/
inductive SessionChange (server : Server) : Op → SessionManager → Prop where
  | same {op : Op} (stays : ∀ session_token, op ≠ .eraseSessionToken session_token)
      (taken : ∀ req session_token, op = .activateSessionToken req →
        headerToken req = .ok session_token → ¬ server.sessions.FreeFor session_token) :
      SessionChange server op server.sessions
  | registered {req : Request} (free : ¬ server.sessions.Leased req.body) :
      SessionChange server (.registerSessionToken req)
        { server.sessions with
          leasedSessionTokens :=
            server.sessions.leasedSessionTokens.insert req.body ⟨server.clock, server.clock⟩ }
  | touched {req : Request} {session_token : Str} :
      SessionChange server (.checkSessionToken req)
        (server.sessions.touchSession server.clock session_token)
  | activated {req : Request} {session_token : Str} (cut : headerToken req = .ok session_token)
      (free : server.sessions.FreeFor session_token) :
      SessionChange server (.activateSessionToken req)
        { server.sessions with activeSessionToken := some session_token }
  | released {req : Request} {session_token : Str} :
      SessionChange server (.releaseSessionToken req)
        (server.sessions.withoutSession session_token)
  | erased {session_token : Str} :
      SessionChange server (.eraseSessionToken session_token)
        { server.sessions with
          leasedSessionTokens := server.sessions.leasedSessionTokens.erase session_token }
  | armed {session_token : Str} {details : TimerThreadDetails}
      (free : server.sessions.sessionTokenTimers.find session_token = none) :
      SessionChange server (.armTimer session_token details)
        { server.sessions with
          sessionTokenTimers :=
            server.sessions.sessionTokenTimers.insert session_token details }
  | quit {session_token : Str} {details : TimerThreadDetails} :
      SessionChange server (.quitTimer session_token)
        { server.sessions with
          sessionTokenTimers := server.sessions.sessionTokenTimers.insert session_token
            { details with QuitFlag := true } }
  | dropped {session_token : Str} :
      SessionChange server (.eraseTimer session_token)
        { server.sessions with
          sessionTokenTimers := server.sessions.sessionTokenTimers.erase session_token }
  | fired {session_token : Str} :
      SessionChange server (.fireTimer session_token)
        (firedSessions session_token server.sessions)

variable {server} in
theorem SessionChange.of_same {op : Op} {sessions : SessionManager}
    (unchanged : sessions = server.sessions)
    (stays : ∀ session_token, op ≠ .eraseSessionToken session_token)
    (taken : ∀ req session_token, op = .activateSessionToken req →
      headerToken req = .ok session_token → ¬ server.sessions.FreeFor session_token) :
    SessionChange server op sessions := by
  rw [unchanged]
  exact .same stays taken

theorem sessionChange_after (op : Op) :
    SessionChange server op (after host op server).sessions := by
  cases op with
  | now | passTime | expiredSessions | sweepTimers => exact .same nofun nofun
  | registerSessionToken req =>
      rw [after_registerSessionToken]
      by_cases leased : server.sessions.Leased req.body
      · rw [RegisterSessionToken_of_leased leased]
        exact .same nofun nofun
      · rw [RegisterSessionToken_of_free leased]
        exact .registered leased
  | checkSessionToken req =>
      rw [after_checkSessionToken]
      rcases requestedSession_cases req server.sessions with
        ⟨token, requested⟩ | ⟨status, refused⟩ | raised
      · rw [CheckSessionToken_of_requested requested]
        exact .touched
      · rw [CheckSessionToken_of_refused refused]
        exact .same nofun nofun
      · rw [CheckSessionToken_of_raised raised]
        exact .same nofun nofun
  | activateSessionToken req =>
      rw [after_activateSessionToken]
      cases cut : headerToken req with
      | error reason =>
          rw [activateSessionToken_of_raised cut]
          refine .same nofun ?_
          rintro _ token ⟨⟩ impossible
          cases cut.symm.trans impossible
      | ok token =>
          by_cases free : server.sessions.FreeFor token
          · rw [activateSessionToken_of_free cut free]
            exact .activated cut free
          · obtain ⟨content, refused⟩ := activateSessionToken_of_taken cut free
            rw [refused]
            refine .same nofun ?_
            rintro _ other ⟨⟩ same
            cases cut.symm.trans same
            exact free
  | checkActiveSessionToken req =>
      refine .of_same ?_ nofun nofun
      rw [after_checkActiveSessionToken]
      exact CheckActiveSessionToken_keeps req server.sessions
  | releaseSessionToken req =>
      rw [after_releaseSessionToken]
      cases cut : headerToken req with
      | error reason =>
          rw [releaseSessionToken_of_raised cut]
          exact .same nofun nofun
      | ok token =>
          rw [releaseSessionToken_of_token cut]
          exact .released
  | getSessionToken req =>
      refine .of_same ?_ nofun nofun
      rw [after_getSessionToken]
      exact GetSessionToken_keeps req server.sessions
  | eraseSessionToken session_token => exact .erased
  | armTimer session_token details =>
      rw [after_armTimer]
      cases found : server.sessions.sessionTokenTimers.find session_token with
      | none =>
          rw [armTimer_of_none found]
          exact .armed found
      | some entry =>
          rw [armTimer_of_some found]
          exact .same nofun nofun
  | quitTimer session_token =>
      rw [after_quitTimer]
      cases found : server.sessions.sessionTokenTimers.find session_token with
      | none =>
          rw [quitTimer_of_none found]
          exact .same nofun nofun
      | some details =>
          rw [quitTimer_of_some found]
          exact .quit
  | eraseTimer session_token => exact .dropped
  | fireTimer session_token =>
      rcases after_fireTimer_sessions host server session_token with fired | same
      · rw [fired]
        exact .fired
      · exact .of_same same nofun nofun
  | processRequest files method path request_data =>
      exact .of_same (after_processRequest_sessions host server files method path request_data)
        nofun nofun

end After

theorem ThreadStep.shared {threads next : Threads} {event : Happening}
    (step : ThreadStep host threads event next) :
    next.shared = threads.shared ∨ ∃ op, next.shared = after host op threads.shared ∧
      ((∃ thread answer, event = .answer thread op answer) ∨ ∃ thread, event = .raise thread op) := by
  cases step with
  | start idle may => exact Or.inl rfl
  | @answer thread op rest answer shared calls returns =>
      refine Or.inr ⟨op, ?_, Or.inl ⟨thread, answer, rfl⟩⟩
      rw [after, returns]
      rfl
  | @raise thread op rest reason shared calls halts goesOn =>
      refine Or.inr ⟨op, ?_, Or.inr ⟨thread, rfl⟩⟩
      rw [after, halts]
      rfl

section Schedules

/-- The server that a configuration starts. -/
def start (host : Host) (jconfig : Json) : Option Server :=
  match Manager.load host.env jconfig [] with
  | .ok manager _ => some ⟨0, ⟨360, .empty, none, .empty⟩, manager⟩
  | .error _ _ => none

theorem started_of_start {jconfig : Json} {server : Server} (starts : server ∈ start host jconfig) :
    Started host server := by
  unfold start at starts
  split at starts
  · next manager log loaded =>
      cases starts
      exact ⟨⟨jconfig, log, loaded⟩, rfl⟩
  · cases starts

/-- All threads of a server are idle. -/
def idle (server : Server) : Threads := ⟨server, fun _ => .done ⟨⟩⟩

theorem threadsStarted_idle {server : Server} (started : Started host server) :
    ThreadsStarted host server.idle := ⟨started, fun _ => rfl⟩

instance (worker : Worker) (reason : Halt) : Decidable (Survives worker reason) :=
  match worker with
  | .connection _ => inferInstanceAs (Decidable (_ = _))
  | .checking => isFalse id
  | .clock => isFalse id

/-- An entry of a schedule: a connection gets a request, the expiry is checked for, time passes,
or a thread makes its next call. -/
inductive Turn where
  | request (number : Nat) (req : Request) (endpoint : Endpoint)
  | check
  | wait (duration : Nat)
  | go (worker : Worker)

def Turn.move : Turn → Move Worker Op Op.Answer
  | .request number req endpoint =>
    .start (.connection number) (handle req endpoint >>= fun _ => pure PUnit.unit)
  | .check => .start .checking checkExpiration
  | .wait duration => .start .clock (ask (.passTime duration))
  | .go worker => .go worker

/-- The run of a schedule. -/
def playTurns (host : Host) (turns : List Turn) (threads : Threads) : List (Happening × Threads) :=
  Pool.play (does host) Survives (turns.map Turn.move) threads

theorem along_playTurns (turns : List Turn) (threads : Threads) :
    Along (ThreadStep host) threads (playTurns host turns threads) := by
  refine Pool.along_play fun {worker task} member => ?_
  obtain ⟨turn, _, moves⟩ := List.mem_map.mp member
  cases turn with
  | request number req endpoint =>
      cases moves
      exact ⟨req, endpoint, rfl⟩
  | check =>
      cases moves
      exact rfl
  | wait duration =>
      cases moves
      exact ⟨duration, rfl⟩
  | go other => cases moves

end Schedules

end Server

end FlexConfig

namespace FlexConfig.Sample

open HTTP

/-! ## A small server

One leaf, and a host that can read the text of one patch of it. -/

def replaceText : Str :=
  "[\x7b\"op\":\"replace\",\"path\":\"/a\",\"value\":\"new\"\x7d]".toList

def oneLeafHost : Host where
  env := deployment (container [("a", object [("type", text "string")])]) fun _ => true
  parse := fun body =>
    if body = replaceText then some (.array [operation "replace" "/a" (some (text "new"))])
    else none
  dump := fun _ => []

def oneLeafConfig : Json := object [("a", text "old")]

/-- A request with a token. -/
def bearer (session_token : String) (body : Str) : Request :=
  ⟨some ("Bearer " ++ session_token).toList, body⟩

/-- The request that leases a token. -/
def leasing (session_token : String) : Request := ⟨none, session_token.toList⟩

end FlexConfig.Sample
