import FlexConfig.Foundation.SortedMap
import FlexConfig.Json.Value
import Mathlib.Data.Char

/-! # Sessions and their timers

A client leases a session under a token of its own choice, becomes the active session by
an update, and has a timer that withdraws the update unless it is confirmed. Two mutexes
guard the sessions and the timers; every definition below that returns a `Sessioning` is
one critical section, and a method that locks twice is two of them.
-/

namespace FlexConfig

open Procedure

namespace HTTP

inductive Method where
  | GET
  | PUT
  | POST
  | DEL
  deriving DecidableEq

inductive StatusCode where
  | INTERNAL_SUCCESS
  | CONTINUE
  | OK
  | CREATED
  | SEE_OTHER
  | CONFLICT
  | INVALID_TOKEN
  | TOKEN_REQUIRED
  | INTERNAL_SERVER_ERROR
  deriving DecidableEq

/-- The number sent to the client. -/
def StatusCode.code : StatusCode → Nat
  | .INTERNAL_SUCCESS => 0
  | .CONTINUE => 100
  | .OK => 200
  | .CREATED => 201
  | .SEE_OTHER => 303
  | .CONFLICT => 409
  | .INVALID_TOKEN => 498
  | .TOKEN_REQUIRED => 499
  | .INTERNAL_SERVER_ERROR => 500

def IsSuccess (status_code : StatusCode) : Bool :=
  decide (200 ≤ status_code.code) && decide (status_code.code ≤ 299)

/-- A request as the handlers see it: the value of the authorization header, and the body. -/
structure Request where
  authorization : Option Str
  body : Str

namespace Header.Tokens

def BEARER : Str := "Bearer".toList

end Header.Tokens

end HTTP

open HTTP

/-- A time point of the system clock, in ticks of a nanosecond. -/
abbrev TimePoint := Int

/-- `duration_cast<seconds>`: the whole seconds of a duration, cut towards zero. -/
def wholeSeconds (duration : Int) : Int := duration.tdiv 1000000000

structure SessionDetails where
  LastRequestAt : TimePoint
  StartAt : TimePoint
  deriving DecidableEq

/-- The callbacks a timer is set with: the update handler's, which withdraws the candidate. -/
inductive SessionTokenTimerCB where
  | withdrawCandidate
  deriving DecidableEq

structure TimerThreadDetails where
  TimerCB : SessionTokenTimerCB
  StartAt : TimePoint
  Timeout : Int
  QuitFlag : Bool
  deriving DecidableEq

/-- The state of the session manager. Timeouts are in seconds. -/
structure SessionManager where
  sessionTimeoutSec : Int
  leasedSessionTokens : SortedMap Str SessionDetails
  activeSessionToken : Option Str
  sessionTokenTimers : SortedMap Str TimerThreadDetails
  deriving DecidableEq

/-- A critical section of the session manager. -/
abbrev Sessioning := EStateM Halt SessionManager

/-- What a check answers: whether the request is accepted, with the status and the content it
puts into the response. -/
structure Verdict where
  accepted : Bool
  status : StatusCode
  content : Option Str
  deriving DecidableEq

namespace SessionManager

/-- A token has a lease. -/
def Leased (sessions : SessionManager) (session_token : Str) : Prop :=
  (sessions.leasedSessionTokens.find session_token).isSome = true

instance (sessions : SessionManager) (session_token : Str) :
    Decidable (sessions.Leased session_token) :=
  inferInstanceAs (Decidable (_ = true))

/-- The token of an authorization header: what follows the scheme and one character. The
trimmed copy of the header is thrown away; a header that is too short raises. -/
def bearerToken (auth : Str) : Attempt Str :=
  if auth.length < Header.Tokens.BEARER.length + 1 then .error .raised
  else .ok (auth.drop (Header.Tokens.BEARER.length + 1))

/-- The token of the header of a request, an empty header where it has none. -/
def headerToken (req : Request) : Attempt Str := bearerToken (req.authorization.getD [])

/-- The leased token of a request, or why it has none. -/
def requestedSession (req : Request) (sessions : SessionManager) :
    Attempt (Except StatusCode Str) :=
  match req.authorization with
  | none => .ok (.error .TOKEN_REQUIRED)
  | some auth => do
    let session_token ← bearerToken auth
    if sessions.Leased session_token then return .ok session_token
    else return .error .INVALID_TOKEN

/-- Note the time of a request of a leased session. -/
def touchSession (now : TimePoint) (session_token : Str) (sessions : SessionManager) :
    SessionManager :=
  match sessions.leasedSessionTokens.find session_token with
  | none => sessions
  | some details =>
    { sessions with
      leasedSessionTokens :=
        sessions.leasedSessionTokens.insert session_token { details with LastRequestAt := now } }

def RegisterSessionToken (now : TimePoint) (req : Request) : Sessioning Verdict := do
  let sessions ← get
  if sessions.Leased req.body then return ⟨false, .CONFLICT, none⟩
  else do
    set { sessions with
      leasedSessionTokens := sessions.leasedSessionTokens.insert req.body ⟨now, now⟩ }
    return ⟨true, .CREATED, none⟩

def CheckSessionToken (now : TimePoint) (req : Request) : Sessioning Verdict := do
  let sessions ← get
  match ← attempt (requestedSession req sessions) with
  | .error status => return ⟨false, status, none⟩
  | .ok session_token => do
    set (sessions.touchSession now session_token)
    return ⟨true, .OK, none⟩

/-- `SetActiveSessionToken` after the check of the token, which it does not repeat. -/
def activateSessionToken (req : Request) : Sessioning Verdict := do
  let sessions ← get
  let session_token ← attempt (headerToken req)
  match sessions.activeSessionToken with
  | some active =>
    if active ≠ session_token then
      return ⟨false, .CONFLICT, some ("There is already active session '".toList ++ active ++
        "'".toList)⟩
    else do
      set { sessions with activeSessionToken := some session_token }
      return ⟨true, .OK, none⟩
  | none => do
    set { sessions with activeSessionToken := some session_token }
    return ⟨true, .OK, none⟩

def CheckActiveSessionToken (req : Request) : Sessioning Verdict := do
  let sessions ← get
  match ← attempt (requestedSession req sessions) with
  | .error status => return ⟨false, status, none⟩
  | .ok session_token =>
    if sessions.activeSessionToken ≠ some session_token then return ⟨false, .INVALID_TOKEN, none⟩
    else return ⟨true, .OK, none⟩

/-- Take a lease away, and the activity with it. -/
def withoutSession (session_token : Str) (sessions : SessionManager) : SessionManager :=
  { sessions with
    leasedSessionTokens := sessions.leasedSessionTokens.erase session_token
    activeSessionToken :=
      if sessions.activeSessionToken = some session_token then none
      else sessions.activeSessionToken }

/-- `RemoveSessionToken` after the check of the token. -/
def releaseSessionToken (req : Request) : Sessioning Verdict := do
  let session_token ← attempt (headerToken req)
  modify (withoutSession session_token)
  return ⟨true, .OK, none⟩

/-- `RemoveActiveSessionToken`, without its answer. -/
def RemoveActiveSessionToken (session_token : Str) (sessions : SessionManager) : SessionManager :=
  if sessions.activeSessionToken = some session_token then
    { sessions with activeSessionToken := none }
  else sessions

def GetSessionToken (req : Request) : Sessioning (Option Str) := do
  let sessions ← get
  match ← attempt (requestedSession req sessions) with
  | .error _ => return none
  | .ok session_token => return some session_token

/-- The sessions whose last noted request is too long ago, the last one in the table first. -/
def expiredSessions (now : TimePoint) : Sessioning (List Str) := do
  let sessions ← get
  return (sessions.leasedSessionTokens.keysWhere fun details =>
    wholeSeconds (now - details.LastRequestAt) > sessions.sessionTimeoutSec).reverse

/-- The last section of an expiry, after the callbacks. -/
def eraseSessionToken (session_token : Str) : Sessioning PUnit :=
  modify fun sessions =>
    { sessions with
      leasedSessionTokens := sessions.leasedSessionTokens.erase session_token }

/-- `SetSessionTokenTimerOnce` on the table: an entry that is not quit is refused, and an entry
that is quit stays, since `emplace` does not replace it. -/
def armTimer (session_token : Str) (timer_details : TimerThreadDetails) : Sessioning Bool := do
  let sessions ← get
  match sessions.sessionTokenTimers.find session_token with
  | none => do
    set { sessions with
      sessionTokenTimers := sessions.sessionTokenTimers.insert session_token timer_details }
    return true
  | some details => return details.QuitFlag

/-- `CancelSessionTokenTimerOnce` on the table. -/
def quitTimer (session_token : Str) : Sessioning Bool := do
  let sessions ← get
  match sessions.sessionTokenTimers.find session_token with
  | none => return false
  | some details => do
    set { sessions with
      sessionTokenTimers :=
        sessions.sessionTokenTimers.insert session_token { details with QuitFlag := true } }
    return true

/-- The tokens of the timers that were quit, and of those that are due, the last one in the
table first. -/
def sweepTimers (now : TimePoint) : Sessioning (List Str × List Str) := do
  let sessions ← get
  let stopped := sessions.sessionTokenTimers.keysWhere fun details => details.QuitFlag
  let expired := sessions.sessionTokenTimers.keysWhere fun details =>
    !details.QuitFlag && decide (wholeSeconds (now - details.StartAt) > details.Timeout)
  return (stopped.reverse, expired.reverse)

def eraseTimer (session_token : Str) : Sessioning PUnit :=
  modify fun sessions =>
    { sessions with sessionTokenTimers := sessions.sessionTokenTimers.erase session_token }

section Sections

variable {sessions : SessionManager} {now : TimePoint} {req : Request}

theorem leased_iff {session_token : Str} :
    sessions.Leased session_token ↔
      ∃ details, sessions.leasedSessionTokens.find session_token = some details :=
  Option.isSome_iff_exists

/-- The leased token a request asks for is that of its header, and is leased. -/
theorem requestedSession_eq_ok {session_token : Str} :
    requestedSession req sessions = .ok (.ok session_token) ↔
      req.authorization.isSome = true ∧ headerToken req = .ok session_token ∧
        sessions.Leased session_token := by
  unfold requestedSession headerToken
  cases header : req.authorization with
  | none =>
      constructor
      · intro impossible
        cases impossible
      · intro impossible
        cases impossible.1
  | some auth =>
      rw [Option.getD_some]
      constructor
      · intro requested
        obtain ⟨token, cut, requested⟩ := except_bind_eq_ok.mp requested
        by_cases leased : sessions.Leased token
        · rw [if_pos leased] at requested
          cases requested
          exact ⟨rfl, cut, leased⟩
        · rw [if_neg leased] at requested
          cases requested
      · intro ⟨_, cut, leased⟩
        refine except_bind_eq_ok.mpr ⟨session_token, cut, ?_⟩
        rw [if_pos leased]
        rfl

@[simp] theorem touchSession_active (session_token : Str) :
    (sessions.touchSession now session_token).activeSessionToken = sessions.activeSessionToken := by
  unfold touchSession
  split <;> rfl

@[simp] theorem touchSession_timers (session_token : Str) :
    (sessions.touchSession now session_token).sessionTokenTimers = sessions.sessionTokenTimers := by
  unfold touchSession
  split <;> rfl

/-- Noting a request changes no lease but in its time. -/
@[simp] theorem touchSession_leased (session_token query : Str) :
    (sessions.touchSession now session_token).Leased query ↔ sessions.Leased query := by
  unfold touchSession
  split
  · exact Iff.rfl
  · next details found =>
      unfold Leased
      rw [SortedMap.find_insert]
      by_cases same : query = session_token
      · rw [if_pos same, same, found]
        exact Iff.rfl
      · rw [if_neg same]

theorem RegisterSessionToken_of_leased (leased : sessions.Leased req.body) :
    RegisterSessionToken now req sessions = .ok ⟨false, .CONFLICT, none⟩ sessions := by
  unfold RegisterSessionToken
  rw [get_bind, if_pos leased]
  rfl

theorem RegisterSessionToken_of_free (free : ¬ sessions.Leased req.body) :
    RegisterSessionToken now req sessions =
      .ok ⟨true, .CREATED, none⟩
        { sessions with
          leasedSessionTokens := sessions.leasedSessionTokens.insert req.body ⟨now, now⟩ } := by
  unfold RegisterSessionToken
  rw [get_bind, if_neg free]
  rfl

/-- A request asks for a leased token, is refused, or has a header that is too short. -/
theorem requestedSession_cases (req : Request) (sessions : SessionManager) :
    (∃ session_token, requestedSession req sessions = .ok (.ok session_token)) ∨
      (∃ status, requestedSession req sessions = .ok (.error status)) ∨
        requestedSession req sessions = .error .raised := by
  unfold requestedSession
  cases req.authorization with
  | none => exact Or.inr (Or.inl ⟨_, rfl⟩)
  | some auth =>
      dsimp only
      unfold bearerToken
      by_cases short : auth.length < Header.Tokens.BEARER.length + 1
      · rw [if_pos short]
        exact Or.inr (Or.inr rfl)
      · rw [if_neg short]
        by_cases leased : sessions.Leased (auth.drop (Header.Tokens.BEARER.length + 1))
        · exact Or.inl ⟨_, if_pos leased⟩
        · exact Or.inr (Or.inl ⟨_, if_neg leased⟩)

theorem CheckSessionToken_of_requested {session_token : Str}
    (requested : requestedSession req sessions = .ok (.ok session_token)) :
    CheckSessionToken now req sessions =
      .ok ⟨true, .OK, none⟩ (sessions.touchSession now session_token) := by
  unfold CheckSessionToken
  rw [get_bind, bind_of_ok (attempt_eq_ok.mpr ⟨requested, rfl⟩)]
  rfl

theorem CheckSessionToken_of_refused {status : StatusCode}
    (refused : requestedSession req sessions = .ok (.error status)) :
    CheckSessionToken now req sessions = .ok ⟨false, status, none⟩ sessions := by
  unfold CheckSessionToken
  rw [get_bind, bind_of_ok (attempt_eq_ok.mpr ⟨refused, rfl⟩)]
  rfl

theorem CheckSessionToken_of_raised {reason : Halt}
    (raised : requestedSession req sessions = .error reason) :
    CheckSessionToken now req sessions = .error reason sessions := by
  unfold CheckSessionToken
  rw [get_bind, bind_of_error (attempt_eq_error.mpr ⟨raised, rfl⟩)]

/-- The slot of the active session is taken by the session or free. -/
def FreeFor (sessions : SessionManager) (session_token : Str) : Prop :=
  sessions.activeSessionToken = none ∨ sessions.activeSessionToken = some session_token

instance (session_token : Str) : Decidable (sessions.FreeFor session_token) :=
  inferInstanceAs (Decidable (_ ∨ _))

theorem activateSessionToken_of_free {session_token : Str}
    (cut : headerToken req = .ok session_token) (free : sessions.FreeFor session_token) :
    activateSessionToken req sessions =
      .ok ⟨true, .OK, none⟩ { sessions with activeSessionToken := some session_token } := by
  unfold activateSessionToken
  rw [get_bind, bind_of_ok (attempt_eq_ok.mpr ⟨cut, rfl⟩)]
  rcases free with nobody | itself
  · rw [nobody]
    rfl
  · rw [itself]
    exact congrFun (if_neg (fun differs => differs rfl)) sessions

/-- A session that finds another one active is refused. -/
theorem activateSessionToken_of_taken {session_token : Str}
    (cut : headerToken req = .ok session_token) (taken : ¬ sessions.FreeFor session_token) :
    ∃ content, activateSessionToken req sessions = .ok ⟨false, .CONFLICT, some content⟩ sessions := by
  unfold activateSessionToken
  rw [get_bind, bind_of_ok (attempt_eq_ok.mpr ⟨cut, rfl⟩)]
  cases active : sessions.activeSessionToken with
  | none => exact (taken (Or.inl active)).elim
  | some other =>
      have differs : other ≠ session_token := fun same => taken (Or.inr (same ▸ active))
      exact ⟨_, congrFun (if_pos differs) sessions⟩

theorem activateSessionToken_of_raised {reason : Halt} (raised : headerToken req = .error reason) :
    activateSessionToken req sessions = .error reason sessions := by
  unfold activateSessionToken
  rw [get_bind, bind_of_error (attempt_eq_error.mpr ⟨raised, rfl⟩)]

theorem releaseSessionToken_of_token {session_token : Str}
    (cut : headerToken req = .ok session_token) :
    releaseSessionToken req sessions =
      .ok ⟨true, .OK, none⟩ (sessions.withoutSession session_token) := by
  unfold releaseSessionToken
  rw [bind_of_ok (attempt_eq_ok.mpr ⟨cut, rfl⟩)]
  rfl

theorem releaseSessionToken_of_raised {reason : Halt} (raised : headerToken req = .error reason) :
    releaseSessionToken req sessions = .error reason sessions := by
  unfold releaseSessionToken
  rw [bind_of_error (attempt_eq_error.mpr ⟨raised, rfl⟩)]

theorem withoutSession_leased {session_token query : Str} :
    (sessions.withoutSession session_token).Leased query ↔
      query ≠ session_token ∧ sessions.Leased query := by
  unfold Leased withoutSession
  rw [SortedMap.find_erase]
  by_cases same : query = session_token <;> simp [same]

theorem withoutSession_active {session_token active : Str} :
    (sessions.withoutSession session_token).activeSessionToken = some active ↔
      active ≠ session_token ∧ sessions.activeSessionToken = some active := by
  unfold withoutSession
  by_cases same : sessions.activeSessionToken = some session_token
  · rw [if_pos same, same]
    constructor
    · intro impossible
      cases impossible
    · intro ⟨differs, equal⟩
      exact (differs (Option.some.inj equal).symm).elim
  · rw [if_neg same]
    exact ⟨fun equal => ⟨fun itself => same (itself ▸ equal), equal⟩, And.right⟩

theorem RemoveActiveSessionToken_active {session_token active : Str}
    (still : (sessions.RemoveActiveSessionToken session_token).activeSessionToken = some active) :
    active ≠ session_token ∧ sessions.activeSessionToken = some active := by
  unfold RemoveActiveSessionToken at still
  by_cases same : sessions.activeSessionToken = some session_token
  · rw [if_pos same] at still
    cases still
  · rw [if_neg same] at still
    exact ⟨fun itself => same (itself ▸ still), still⟩

@[simp] theorem RemoveActiveSessionToken_leases (session_token : Str) :
    (sessions.RemoveActiveSessionToken session_token).leasedSessionTokens =
      sessions.leasedSessionTokens := by
  unfold RemoveActiveSessionToken
  split <;> rfl

@[simp] theorem RemoveActiveSessionToken_timers (session_token : Str) :
    (sessions.RemoveActiveSessionToken session_token).sessionTokenTimers =
      sessions.sessionTokenTimers := by
  unfold RemoveActiveSessionToken
  split <;> rfl

/-- The active check accepts the requests of the active session alone, and notes nothing. -/
theorem CheckActiveSessionToken_cases (req : Request) (sessions : SessionManager) :
    (∃ session_token, requestedSession req sessions = .ok (.ok session_token) ∧
      sessions.activeSessionToken = some session_token ∧
        CheckActiveSessionToken req sessions = .ok ⟨true, .OK, none⟩ sessions) ∨
      (∃ status, CheckActiveSessionToken req sessions = .ok ⟨false, status, none⟩ sessions) ∨
        CheckActiveSessionToken req sessions = .error .raised sessions := by
  unfold CheckActiveSessionToken
  rw [get_bind]
  rcases requestedSession_cases req sessions with ⟨token, requested⟩ | ⟨status, refused⟩ | raised
  · rw [bind_of_ok (attempt_eq_ok.mpr ⟨requested, rfl⟩)]
    by_cases active : sessions.activeSessionToken = some token
    · exact Or.inl ⟨token, requested, active, congrFun (if_neg (fun differs => differs active)) _⟩
    · exact Or.inr (Or.inl ⟨_, congrFun (if_pos active) _⟩)
  · rw [bind_of_ok (attempt_eq_ok.mpr ⟨refused, rfl⟩)]
    exact Or.inr (Or.inl ⟨_, rfl⟩)
  · exact Or.inr (Or.inr (bind_of_error (attempt_eq_error.mpr ⟨raised, rfl⟩)))

theorem CheckActiveSessionToken_of_active {session_token : Str}
    (requested : requestedSession req sessions = .ok (.ok session_token))
    (active : sessions.activeSessionToken = some session_token) :
    CheckActiveSessionToken req sessions = .ok ⟨true, .OK, none⟩ sessions := by
  unfold CheckActiveSessionToken
  rw [get_bind, bind_of_ok (attempt_eq_ok.mpr ⟨requested, rfl⟩)]
  exact congrFun (if_neg (fun differs => differs active)) _

/-- A session that is not the active one is refused. -/
theorem CheckActiveSessionToken_of_inactive {session_token : Str}
    (requested : requestedSession req sessions = .ok (.ok session_token))
    (inactive : sessions.activeSessionToken ≠ some session_token) :
    CheckActiveSessionToken req sessions = .ok ⟨false, .INVALID_TOKEN, none⟩ sessions := by
  unfold CheckActiveSessionToken
  rw [get_bind, bind_of_ok (attempt_eq_ok.mpr ⟨requested, rfl⟩)]
  exact congrFun (if_pos inactive) _

theorem GetSessionToken_of_requested {session_token : Str}
    (requested : requestedSession req sessions = .ok (.ok session_token)) :
    GetSessionToken req sessions = .ok (some session_token) sessions := by
  unfold GetSessionToken
  rw [get_bind, bind_of_ok (attempt_eq_ok.mpr ⟨requested, rfl⟩)]
  rfl

theorem GetSessionToken_of_refused {status : StatusCode}
    (refused : requestedSession req sessions = .ok (.error status)) :
    GetSessionToken req sessions = .ok none sessions := by
  unfold GetSessionToken
  rw [get_bind, bind_of_ok (attempt_eq_ok.mpr ⟨refused, rfl⟩)]
  rfl

theorem CheckActiveSessionToken_of_refused {status : StatusCode}
    (refused : requestedSession req sessions = .ok (.error status)) :
    CheckActiveSessionToken req sessions = .ok ⟨false, status, none⟩ sessions := by
  unfold CheckActiveSessionToken
  rw [get_bind, bind_of_ok (attempt_eq_ok.mpr ⟨refused, rfl⟩)]
  rfl

theorem GetSessionToken_keeps (req : Request) : Keeps id (GetSessionToken req) := by
  refine keeps_bind keeps_get fun sessions => keeps_bind (keeps_attempt _) fun result => ?_
  cases result with
  | error status => exact keeps_pure none
  | ok session_token => exact keeps_pure (some session_token)

theorem CheckActiveSessionToken_keeps (req : Request) : Keeps id (CheckActiveSessionToken req) := by
  intro sessions
  rcases CheckActiveSessionToken_cases req sessions with ⟨_, _, _, ran⟩ | ⟨_, ran⟩ | ran
  · rw [ran, final_ok]
  · rw [ran, final_ok]
  · rw [ran, final_error]

theorem expiredSessions_eq (now : TimePoint) (sessions : SessionManager) :
    expiredSessions now sessions =
      .ok (sessions.leasedSessionTokens.keysWhere fun details =>
        wholeSeconds (now - details.LastRequestAt) > sessions.sessionTimeoutSec).reverse
        sessions := rfl

/-- The timers that are due. -/
def Due (now : TimePoint) (details : TimerThreadDetails) : Bool :=
  !details.QuitFlag && decide (wholeSeconds (now - details.StartAt) > details.Timeout)

theorem sweepTimers_eq (now : TimePoint) (sessions : SessionManager) :
    sweepTimers now sessions =
      .ok ((sessions.sessionTokenTimers.keysWhere fun details => details.QuitFlag).reverse,
        (sessions.sessionTokenTimers.keysWhere (Due now)).reverse) sessions := rfl

theorem armTimer_of_none {session_token : Str} {timer_details : TimerThreadDetails}
    (free : sessions.sessionTokenTimers.find session_token = none) :
    armTimer session_token timer_details sessions =
      .ok true { sessions with
        sessionTokenTimers := sessions.sessionTokenTimers.insert session_token timer_details } := by
  unfold armTimer
  rw [get_bind, free]
  rfl

/-- Where a token has an entry, setting a timer leaves it as it is, and succeeds if it is quit. -/
theorem armTimer_of_some {session_token : Str} {timer_details details : TimerThreadDetails}
    (found : sessions.sessionTokenTimers.find session_token = some details) :
    armTimer session_token timer_details sessions = .ok details.QuitFlag sessions := by
  unfold armTimer
  rw [get_bind, found]
  rfl

theorem quitTimer_of_none {session_token : Str}
    (free : sessions.sessionTokenTimers.find session_token = none) :
    quitTimer session_token sessions = .ok false sessions := by
  unfold quitTimer
  rw [get_bind, free]
  rfl

theorem quitTimer_of_some {session_token : Str} {details : TimerThreadDetails}
    (found : sessions.sessionTokenTimers.find session_token = some details) :
    quitTimer session_token sessions =
      .ok true { sessions with
        sessionTokenTimers :=
          sessions.sessionTokenTimers.insert session_token { details with QuitFlag := true } } := by
  unfold quitTimer
  rw [get_bind, found]
  rfl

end Sections

end SessionManager

end FlexConfig
