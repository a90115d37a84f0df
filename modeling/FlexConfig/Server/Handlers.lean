import FlexConfig.Foundation.Concurrent
import FlexConfig.Manager.Manager
import FlexConfig.Server.Sessions

/-! # The server

The handlers of the HTTP server and the thread that checks for expired sessions, each a
routine of critical sections over the sessions, the timers, the manager and the clock.
-/

namespace FlexConfig

open Procedure HTTP Concurrent

/-- What the server runs on: what surrounds the manager, and the texts of JSON documents. -/
structure Host where
  env : Env
  parse : Str → Option Json
  dump : Json → Str

namespace URIRequestPath

def CANDIDATE : Str := "/config/candidate".toList
def RUNNING : Str := "/config/running".toList
def RUNNING_UPDATE : Str := "/config/running/update".toList
def RUNNING_DIFF : Str := "/config/running/diff".toList

end URIRequestPath

section Requests

variable (host : Host)

/-- `nlohmann::json::parse`: raises where the text is no JSON. -/
def Host.parseJson (text : Str) : Attempt Json := (host.parse text).elim (.error .raised) .ok

/-- A callback for requests: the status and the returned data, which it is given as they are. -/
abbrev RequestCallback := (path data_request return_data : Str) → Managing (StatusCode × Str)

/-- Whether an operation of the manager answered `true`. -/
def answered (body : Managing PUnit) : Managing Bool := fun manager =>
  match body manager with
  | .ok _ next => .ok true next
  | .error .rejected next => .ok false next
  | .error reason next => .error reason next

/-- A boolean assigned to a string: one character of that number. -/
def assignedBool (answer : Bool) : Str := [Char.ofNat answer.toNat]

/-- `Config::Manager::getConfigDiff`. The merged copy it computes on the way is not used. -/
def Manager.getConfigDiff (patch : Str) : Managing Str := do
  let manager ← get
  let jschema ← attempt host.env.loadedSchema
  let new_jconfig ← attempt (host.parseJson patch)
  if host.env.validate new_jconfig jschema then do
    let running_jconfig ← attempt (storedJson manager.runningJson)
    let diff := running_jconfig.diff new_jconfig
    let _ ← attempt (running_jconfig.patch diff)
    return host.dump diff
  else return []

/-- Handle requests to one path, and leave those to others to the next callback. -/
def onPath (expected : Str) (handler : (data_request return_data : Str) →
    Managing (StatusCode × Str)) : RequestCallback := fun path data_request return_data =>
  if path ≠ expected then return (.INTERNAL_SUCCESS, return_data)
  else handler data_request return_data

def config_running_update : RequestCallback :=
  onPath URIRequestPath.RUNNING_UPDATE fun data_request return_data => do
    let patch ← attempt (host.parseJson data_request)
    let made ← answered (Manager.makeCandidateConfig host.env patch)
    return (if made then .OK else .INTERNAL_SERVER_ERROR, return_data)

def config_running_get : RequestCallback :=
  onPath URIRequestPath.RUNNING fun _ _ => do
    let manager ← get
    let running_jconfig ← attempt (storedJson manager.runningJson)
    return (.OK, host.dump running_jconfig)

def config_running_diff : RequestCallback :=
  onPath URIRequestPath.RUNNING_DIFF fun data_request _ => do
    let diff ← Manager.getConfigDiff host data_request
    return (.OK, diff)

def config_candidate_get : RequestCallback :=
  onPath URIRequestPath.CANDIDATE fun _ _ => do
    let manager ← get
    let candidate_jconfig ← attempt (storedJson manager.candidateJson)
    return (.OK, host.dump candidate_jconfig)

/-- The answer of the apply becomes a text, and the status is a success in any case. -/
def config_candidate_apply (files : FileOutcome) : RequestCallback :=
  onPath URIRequestPath.CANDIDATE fun _ _ => do
    let applied ← answered (Manager.applyCandidateConfig files)
    return (.OK, assignedBool applied)

/-- Likewise for the answer of the cancellation. -/
def config_candidate_delete : RequestCallback :=
  onPath URIRequestPath.CANDIDATE fun _ _ => do
    let cancelled ← answered (Manager.cancelCandidateConfig host.env)
    return (.OK, assignedBool cancelled)

/-- `setupRequestHandlersF`: the callbacks of a method, in the order of their identifiers. -/
def setupRequestHandlersF (files : FileOutcome) : Method → List RequestCallback
  | .POST => [config_running_diff host, config_running_update host]
  | .GET => [config_candidate_get host, config_running_get host]
  | .PUT => [config_candidate_apply files]
  | .DEL => [config_candidate_delete host]

/-- Ask the callbacks in turn until one handles the request. -/
def processCallbacks (path request_data : Str) :
    List RequestCallback → (status_code : StatusCode) → (return_data : Str) →
      Managing (StatusCode × Str)
  | [], status_code, return_data => pure (status_code, return_data)
  | cb :: rest, _, return_data => do
    let (status_code, return_data) ← cb path request_data return_data
    if status_code = .INTERNAL_SUCCESS then processCallbacks path request_data rest status_code return_data
    else return (status_code, return_data)

/-- `Server::processRequest`, with how the file operations of an apply end. -/
def processRequest (files : FileOutcome) (method : Method) (path request_data : Str) :
    Managing (StatusCode × Str) :=
  processCallbacks path request_data (setupRequestHandlersF host files method)
    .INTERNAL_SERVER_ERROR []

end Requests

/-- The state of the server. -/
structure Server where
  clock : TimePoint
  sessions : SessionManager
  manager : Manager

/-- An operation of the server. -/
abbrev Serving := EStateM Halt Server

namespace Server

/-- Run a critical section of the session manager. -/
def onSessions {α : Type} (body : Sessioning α) : Serving α :=
  focus Server.sessions (fun sessions server => { server with sessions := sessions }) body

/-- Run an operation of the manager. -/
def onManager {α : Type} (body : Managing α) : Serving α :=
  focus Server.manager (fun manager server => { server with manager := manager }) body

variable (host : Host)

/-- Run the callback of a timer. -/
def runTimerCB (session_token : Str) : SessionTokenTimerCB → Serving PUnit
  | .withdrawCandidate => do
    let _ ← onManager (processRequest host .success .DEL URIRequestPath.CANDIDATE [])
    modify fun server =>
      { server with sessions := server.sessions.RemoveActiveSessionToken session_token }

/-- Fire a timer that was found to be due, whatever has become of it since. -/
def fireTimer (session_token : Str) : Serving PUnit := do
  let server ← get
  match server.sessions.sessionTokenTimers.find session_token with
  | none => throw .crashed
  | some timer_details => do
    runTimerCB host session_token timer_details.TimerCB
    onSessions (SessionManager.eraseTimer session_token)

/-- The operations of which the routines of the server are made: the critical sections, the
requests to the manager, and reading the clock, which is moved on by none of them. -/
inductive Op where
  | now
  | registerSessionToken (req : Request)
  | checkSessionToken (req : Request)
  | activateSessionToken (req : Request)
  | checkActiveSessionToken (req : Request)
  | releaseSessionToken (req : Request)
  | getSessionToken (req : Request)
  | expiredSessions (now : TimePoint)
  | eraseSessionToken (session_token : Str)
  | armTimer (session_token : Str) (timer_details : TimerThreadDetails)
  | quitTimer (session_token : Str)
  | sweepTimers (now : TimePoint)
  | eraseTimer (session_token : Str)
  | fireTimer (session_token : Str)
  | processRequest (files : FileOutcome) (method : Method) (path request_data : Str)
  | passTime (duration : Nat)

/-- What an operation answers. -/
@[reducible] def Op.Answer : Op → Type
  | .now => TimePoint
  | .registerSessionToken _ => Verdict
  | .checkSessionToken _ => Verdict
  | .activateSessionToken _ => Verdict
  | .checkActiveSessionToken _ => Verdict
  | .releaseSessionToken _ => Verdict
  | .getSessionToken _ => Option Str
  | .expiredSessions _ => List Str
  | .eraseSessionToken _ => PUnit
  | .armTimer _ _ => Bool
  | .quitTimer _ => Bool
  | .sweepTimers _ => List Str × List Str
  | .eraseTimer _ => PUnit
  | .fireTimer _ => PUnit
  | .processRequest _ _ _ _ => StatusCode × Str
  | .passTime _ => PUnit

/-- What an operation does. Those of the sessions hold a mutex. A request to the manager holds none:
two of them that overlap are taken here as done one after the other. -/
def does : (op : Op) → Serving op.Answer
  | .now => do return (← get).clock
  | .registerSessionToken req => do
    let server ← get
    onSessions (SessionManager.RegisterSessionToken server.clock req)
  | .checkSessionToken req => do
    let server ← get
    onSessions (SessionManager.CheckSessionToken server.clock req)
  | .activateSessionToken req => onSessions (SessionManager.activateSessionToken req)
  | .checkActiveSessionToken req => onSessions (SessionManager.CheckActiveSessionToken req)
  | .releaseSessionToken req => onSessions (SessionManager.releaseSessionToken req)
  | .getSessionToken req => onSessions (SessionManager.GetSessionToken req)
  | .expiredSessions now => onSessions (SessionManager.expiredSessions now)
  | .eraseSessionToken session_token => onSessions (SessionManager.eraseSessionToken session_token)
  | .armTimer session_token details => onSessions (SessionManager.armTimer session_token details)
  | .quitTimer session_token => onSessions (SessionManager.quitTimer session_token)
  | .sweepTimers now => onSessions (SessionManager.sweepTimers now)
  | .eraseTimer session_token => onSessions (SessionManager.eraseTimer session_token)
  | .fireTimer session_token => fireTimer host session_token
  | .processRequest files method path request_data =>
    onManager (FlexConfig.processRequest host files method path request_data)
  | .passTime duration => modify fun server => { server with clock := server.clock + duration }

/-- A routine of the server. -/
abbrev Task := Routine Op Op.Answer

/-- Call an operation and return its answer. -/
def ask (op : Op) : Task op.Answer := Routine.perform op

section Methods

def SetActiveSessionToken (req : Request) : Task Verdict := do
  let verdict : Verdict ← ask (.checkSessionToken req)
  if verdict.accepted then ask (.activateSessionToken req) else return verdict

def RemoveSessionToken (req : Request) : Task Verdict := do
  let verdict : Verdict ← ask (.checkSessionToken req)
  if verdict.accepted then ask (.releaseSessionToken req) else return verdict

/-- The value a header has for those who ask for it: what is before its first NUL, or none where
there is a line break in it. -/
def headerValue (value : Str) : Option Str :=
  if '\r' ∈ Text.c_str value ∨ '\n' ∈ Text.c_str value then none else some (Text.c_str value)

/-- The request by which a session is removed under its token. -/
def removalRequest (session_token : Str) : Request :=
  ⟨headerValue (Header.Tokens.BEARER ++ ' ' :: session_token), []⟩

/-- Set a timer for the session of a request; an empty token is taken for none. -/
def SetSessionTokenTimerOnce (req : Request) (timer_callback : SessionTokenTimerCB)
    (timeout_sec : Int) : Task Bool := do
  let session_token : Option Str ← ask (.getSessionToken req)
  if session_token.getD [] = [] then return false
  else do
    let now : TimePoint ← ask .now
    ask (.armTimer (session_token.getD []) ⟨timer_callback, now, timeout_sec, false⟩)

def CancelSessionTokenTimerOnce (req : Request) : Task Bool := do
  let session_token : Option Str ← ask (.getSessionToken req)
  if session_token.getD [] = [] then return false
  else ask (.quitTimer (session_token.getD []))

end Methods

section Run

/-- What a handler puts into the response. -/
structure Response where
  status : Option StatusCode
  content : Option Str

/-- The response to a request that was refused or needed no more than the check. -/
def Verdict.response (verdict : Verdict) : Response := ⟨some verdict.status, verdict.content⟩

/-- Hand a request to the manager and answer with what it returns. -/
def respond (files : FileOutcome) (method : Method) (path : Str) (req : Request) :
    Task Response := do
  let result : StatusCode × Str ← ask (.processRequest files method path req.body)
  return ⟨some result.1, some (if IsSuccess result.1 then result.2 else "Failed".toList)⟩

/-- The requests the server handles. How the file operations end is given for the one that
writes a file. -/
inductive Endpoint where
  | postSessionToken
  | deleteSessionToken
  | getRunning
  | postRunningUpdate
  | postRunningDiff
  | getCandidate
  | putCandidate (files : FileOutcome)
  | deleteCandidate

/-- The time after which an update that is not confirmed is withdrawn. -/
def confirmationTimeoutSec : Int := 180

/-- The handler of a candidate request that ends the confirmation. -/
def concludeCandidate (files : FileOutcome) (method : Method) (req : Request) :
    Task Response := do
  let verdict : Verdict ← ask (.checkActiveSessionToken req)
  if verdict.accepted then do
    let _ ← CancelSessionTokenTimerOnce req
    respond files method URIRequestPath.CANDIDATE req
  else return Verdict.response verdict

/-- `Server::Run`: the handler of each request. -/
def handle (req : Request) : Endpoint → Task Response
  | .postSessionToken => do
    let verdict : Verdict ← ask (.registerSessionToken req)
    return Verdict.response verdict
  | .deleteSessionToken => do
    let verdict ← RemoveSessionToken req
    return Verdict.response verdict
  | .getRunning => do
    let result : StatusCode × Str ←
      ask (.processRequest .success .GET URIRequestPath.RUNNING req.body)
    -- the status that was returned is compared with zero
    if result.1 ≠ .INTERNAL_SUCCESS then return ⟨some .OK, some result.2⟩
    else return ⟨some .INTERNAL_SERVER_ERROR, some "Failed".toList⟩
  | .postRunningUpdate => do
    let verdict ← SetActiveSessionToken req
    if verdict.accepted then do
      let _ ← CancelSessionTokenTimerOnce req
      let response ← respond .success .POST URIRequestPath.RUNNING_UPDATE req
      let _ ← SetSessionTokenTimerOnce req .withdrawCandidate confirmationTimeoutSec
      return response
    else return Verdict.response verdict
  | .postRunningDiff => respond .success .POST URIRequestPath.RUNNING_DIFF req
  | .getCandidate => do
    let verdict : Verdict ← ask (.checkActiveSessionToken req)
    if verdict.accepted then respond .success .GET URIRequestPath.CANDIDATE req
    else return Verdict.response verdict
  | .putCandidate files => concludeCandidate files .PUT req
  | .deleteCandidate => concludeCandidate .success .DEL req

/-- The callbacks registered for the end of a session: the server's. -/
def sessionTimeoutCallbacks : List (Str → Task PUnit) :=
  [fun session_token => do
    let _ ← RemoveSessionToken (removalRequest session_token)
    return ⟨⟩]

/-- End the lease of a session that has expired. -/
def expireSession (session_token : Str) : Task PUnit := do
  Routine.forEach (fun timeout_cb => timeout_cb session_token) sessionTimeoutCallbacks
  ask (.eraseSessionToken session_token)

/-- One round of the thread that checks for expired sessions and timers. -/
def checkExpiration : Task PUnit := do
  let now : TimePoint ← ask .now
  let expired_session_token : List Str ← ask (.expiredSessions now)
  Routine.forEach expireSession expired_session_token
  let timers : List Str × List Str ← ask (.sweepTimers now)
  Routine.forEach (fun session_token => ask (.eraseTimer session_token)) timers.1
  Routine.forEach (fun session_token => ask (.fireTimer session_token)) timers.2

end Run

end Server

end FlexConfig
