import FlexConfig.Server.Calls

/-! # The timer of a pending candidate

A candidate that is not confirmed is to be withdrawn by a timer, the one the last update has
set. An entry of the table of timers stays in it after it was quit, until the next round of
the checking thread, and setting a timer does not replace it: an update that finds an
entry under its token leaves it quit, and is told that the timer was set.
-/

namespace FlexConfig.Server

open Procedure HTTP Concurrent SessionManager

/-- The token and the time of the last update that was accepted. -/
abbrev LastUpdate := Option (Str × TimePoint)

namespace LastUpdate

/-- Note an update that is accepted. -/
def note (record : LastUpdate) (before : Server) (call : Call) (_ : Server) : LastUpdate :=
  match call with
  | .request req .postRunningUpdate =>
    match acceptedToken before req .postRunningUpdate with
    | none => record
    | some token => some (token, before.clock)
  | _ => record

end LastUpdate

/-- A pending candidate has a timer that is live, and that the last update has set. -/
def Armed (server : Server) (record : LastUpdate) : Prop :=
  server.manager.Pending → ∃ token start, record = some (token, start) ∧
    server.sessions.sessionTokenTimers.find token = some (confirmationTimer start)

instance (server : Server) (record : LastUpdate) : Decidable (Armed server record) :=
  decidable_of_iff
    (server.manager.Pending → ∃ last ∈ record,
      server.sessions.sessionTokenTimers.find last.1 = some (confirmationTimer last.2)) <| by
    refine imp_congr_right fun _ => ?_
    rw [Prod.exists]
    exact Iff.rfl

section Statement

variable (host : Host)

/-- The server when the handler of an update sets the timer: the manager has returned. -/
def settingFrom (server : Server) (req : Request) (session_token : Str) : Option Server :=
  match processRequest host .success .POST URIRequestPath.RUNNING_UPDATE req.body server.manager with
  | .ok _ manager =>
    some ⟨server.clock, updatingSessions server.clock session_token server.sessions, manager⟩
  | .error _ _ => none

/-- When the update's `SetSessionTokenTimerOnce` returns `true`, the table holds the live timer it
was given. -/
def SetsLive (server : Server) : Call → Prop
  | .request req .postRunningUpdate =>
    ∀ token setting set, Accepts server req .postRunningUpdate token →
      settingFrom host server req token = some setting →
        (SetSessionTokenTimerOnce req .withdrawCandidate confirmationTimeoutSec).run (does host)
          setting = .ok true set →
            set.sessions.sessionTokenTimers.find token = some (confirmationTimer server.clock)
  | _ => True

/-- The manager returns from an update. -/
def Returns (server : Server) (req : Request) : Prop :=
  ∃ result next, processRequest host .success .POST URIRequestPath.RUNNING_UPDATE req.body
    server.manager = .ok result next

instance (server : Server) (req : Request) : Decidable (Returns host server req) :=
  match ran : processRequest host .success .POST URIRequestPath.RUNNING_UPDATE req.body
      server.manager with
  | .ok result next => isTrue ⟨result, next, ran⟩
  | .error _ _ => isFalse fun ⟨_, _, returns⟩ => by cases ran.symm.trans returns

/-- The confirmation is watched: an update from which the manager returns finds no entry under its
token; one that makes a candidate or finds one pending has a token that is not empty, and the
manager returns from it; and while a candidate is pending, a request that applies or cancels it
is answered with `true`, and so is the cancellation by the last update's timer. -/
def Watches (before : Server × LastUpdate) : Call → Prop
  | .request req .postRunningUpdate =>
    ∀ token, Accepts before.1 req .postRunningUpdate token →
      (Returns host before.1 req → token ≠ [] →
        before.1.sessions.sessionTokenTimers.find token = none) ∧
      (before.1.manager.Pending ∨ Succeeds host req.body before.1.manager →
        Returns host before.1 req ∧ token ≠ [])
  | .request req (.putCandidate files) =>
    ∀ token, Accepts before.1 req (.putCandidate files) token → before.1.manager.Pending →
      Concludes host files .PUT before.1.manager
  | .request req .deleteCandidate =>
    ∀ token, Accepts before.1 req .deleteCandidate token → before.1.manager.Pending →
      Concludes host .success .DEL before.1.manager
  | .fire token =>
    ∀ start, before.2 = some (token, start) → before.1.manager.Pending →
      Concludes host .success .DEL before.1.manager
  | _ => True

instance (before : Server × LastUpdate) (call : Call) : Decidable (Watches host before call) :=
  match call with
  | .request req .postRunningUpdate =>
    decidable_of_iff
      (∀ token ∈ acceptedToken before.1 req .postRunningUpdate,
        (Returns host before.1 req → token ≠ [] →
          before.1.sessions.sessionTokenTimers.find token = none) ∧
        (before.1.manager.Pending ∨ Succeeds host req.body before.1.manager →
          Returns host before.1 req ∧ token ≠ [])) <|
      forall_congr' fun _ => imp_congr_left acceptedToken_eq_some
  | .request req (.putCandidate files) =>
    decidable_of_iff
      (∀ token ∈ acceptedToken before.1 req (.putCandidate files), before.1.manager.Pending →
        Concludes host files .PUT before.1.manager) <|
      forall_congr' fun _ => imp_congr_left acceptedToken_eq_some
  | .request req .deleteCandidate =>
    decidable_of_iff
      (∀ token ∈ acceptedToken before.1 req .deleteCandidate, before.1.manager.Pending →
        Concludes host .success .DEL before.1.manager) <|
      forall_congr' fun _ => imp_congr_left acceptedToken_eq_some
  | .fire token =>
    decidable_of_iff
      (∀ last ∈ before.2, last.1 = token → before.1.manager.Pending →
        Concludes host .success .DEL before.1.manager) <| by
      rw [Prod.forall]
      refine ⟨fun all start last => all token start last rfl, fun all other start last same => ?_⟩
      exact all start (same ▸ last)
  | .request _ .postSessionToken | .request _ .deleteSessionToken | .request _ .getRunning
  | .request _ .postRunningDiff | .request _ .getCandidate | .expire _ | .dropTimer _
  | .wait _ => isTrue trivial

end Statement

/-- The active session is that of the last update, and the empty token has no timer. -/
structure Tracked (server : Server) (record : LastUpdate) : Prop where
  active : ∀ token, server.sessions.activeSessionToken = some token →
    ∃ start, record = some (token, start)
  named : server.sessions.sessionTokenTimers.find [] = none

section Steps

variable {host : Host} {before after : Server} {record : LastUpdate} {call : Call}

theorem armed_iff {token : Str} {start : TimePoint} :
    Armed after (some (token, start)) ↔ (after.manager.Pending →
      after.sessions.sessionTokenTimers.find token = some (confirmationTimer start)) := by
  refine imp_congr_right fun _ => ⟨fun ⟨other, when, same, found⟩ => ?_, fun found => ?_⟩
  · cases same
    exact found
  · exact ⟨token, start, rfl, found⟩

/-- Where no timer of the last update is live, no candidate may be pending. -/
theorem armed_iff_of_missing {token : Str} {start : TimePoint}
    (missing : after.sessions.sessionTokenTimers.find token ≠ some (confirmationTimer start)) :
    Armed after (some (token, start)) ↔ ¬ after.manager.Pending :=
  armed_iff.trans (imp_congr_right fun _ => iff_false_intro missing)

/-- A cancelled timer is not live. -/
theorem quitSession_missing {token : Str} {start : TimePoint} {sessions : SessionManager}
    (named : sessions.sessionTokenTimers.find [] = none) :
    (quitSession token sessions).sessionTokenTimers.find token ≠ some (confirmationTimer start) :=
  fun found => (live_of_quitSession named found rfl).1 rfl

theorem note_accepted {req : Request} {token : Str}
    (accepts : Accepts before req .postRunningUpdate token) :
    LastUpdate.note record before (.request req .postRunningUpdate) after =
      some (token, before.clock) := by
  unfold LastUpdate.note
  dsimp only
  rw [acceptedToken_eq_some.mpr accepts]

theorem note_unaccepted {req : Request} {endpoint : Endpoint}
    (refused : ∀ token, ¬ Accepts before req endpoint token) :
    LastUpdate.note record before (.request req endpoint) after = record := by
  cases endpoint with
  | postRunningUpdate =>
      unfold LastUpdate.note
      dsimp only
      rw [acceptedToken_eq_none.mpr refused]
  | _ => rfl

/-- The timer of an update from which the manager has returned. -/
theorem setsLive_iff {req : Request} {token : Str} {result : StatusCode × Str} {manager : Manager}
    (requests : Requests req token before.sessions) (free : before.sessions.FreeFor token)
    (ran : processRequest host .success .POST URIRequestPath.RUNNING_UPDATE req.body
      before.manager = .ok result manager) :
    SetsLive host before (.request req .postRunningUpdate) ↔
      (setAnswer token (updatingSessions before.clock token before.sessions) = true →
        (armSession token (confirmationTimer before.clock)
          (updatingSessions before.clock token before.sessions)).sessionTokenTimers.find token =
            some (confirmationTimer before.clock)) := by
  have setting : settingFrom host before req token =
      some ⟨before.clock, updatingSessions before.clock token before.sessions, manager⟩ := by
    rw [settingFrom, ran]
  have set : (SetSessionTokenTimerOnce req .withdrawCandidate confirmationTimeoutSec).run
      (does host) ⟨before.clock, updatingSessions before.clock token before.sessions, manager⟩ =
        .ok (setAnswer token (updatingSessions before.clock token before.sessions))
          ⟨before.clock, armSession token (confirmationTimer before.clock)
            (updatingSessions before.clock token before.sessions), manager⟩ :=
    run_set (requests_updating requests) .withdrawCandidate confirmationTimeoutSec
  constructor
  · intro live answered
    rw [answered] at set
    exact live token _ _ ⟨requests, free⟩ setting set
  · intro found other setFrom last accepts sets returned
    cases token_of_accepts requests accepts
    cases setting.symm.trans sets
    obtain ⟨answered, same⟩ := EStateM.Result.ok.inj (set.symm.trans returned)
    rw [← same]
    exact found answered

theorem watches_update_iff {req : Request} {token : Str}
    (requests : Requests req token before.sessions) (free : before.sessions.FreeFor token) :
    Watches host (before, record) (.request req .postRunningUpdate) ↔
      (Returns host before req → token ≠ [] →
        before.sessions.sessionTokenTimers.find token = none) ∧
      (before.manager.Pending ∨ Succeeds host req.body before.manager →
        Returns host before req ∧ token ≠ []) := by
  constructor
  · intro watches
    exact watches token ⟨requests, free⟩
  · intro watches other accepts
    cases token_of_accepts requests accepts
    exact watches

theorem exact_of_updated {req : Request} {token : Str} {result : StatusCode × Str}
    {manager : Manager} (tracked : Tracked before record)
    (requests : Requests req token before.sessions) (free : before.sessions.FreeFor token)
    (ran : processRequest host .success .POST URIRequestPath.RUNNING_UPDATE req.body
      before.manager = .ok result manager) :
    (Armed ⟨before.clock, armSession token (confirmationTimer before.clock)
        (updatingSessions before.clock token before.sessions), manager⟩
        (some (token, before.clock)) ∧ SetsLive host before (.request req .postRunningUpdate)) ↔
      Watches host (before, record) (.request req .postRunningUpdate) := by
  have returns : Returns host before req := ⟨result, manager, ran⟩
  have pending := pending_after_update host req.body before.manager
  rw [ran, final_ok] at pending
  rw [setsLive_iff requests free ran, watches_update_iff requests free]
  have updating : (updatingSessions before.clock token before.sessions).sessionTokenTimers.find
      token = (quitSession token before.sessions).sessionTokenTimers.find token :=
    updatingSessions_find
  by_cases empty : token = []
  · -- the empty token is told that no timer was set
    have missing : (armSession token (confirmationTimer before.clock) (updatingSessions before.clock
        token before.sessions)).sessionTokenTimers.find token ≠
          some (confirmationTimer before.clock) := by
      rw [armSession_find, if_neg (fun set => set.2.1 empty), updating]
      exact quitSession_missing tracked.named
    have unanswered : setAnswer token (updatingSessions before.clock token before.sessions) ≠ true := by
      rw [setAnswer, decide_eq_false (fun differs => differs empty)]
      exact Bool.false_ne_true
    rw [armed_iff_of_missing missing]
    constructor
    · intro ⟨unpending, _⟩
      exact ⟨fun _ differs => (differs empty).elim, fun either =>
        (unpending (pending.mpr either)).elim⟩
    · intro ⟨_, named⟩
      exact ⟨fun isPending => (named (pending.mp isPending)).2 empty, fun answered =>
        (unanswered answered).elim⟩
  · cases found : before.sessions.sessionTokenTimers.find token with
    | none =>
        have free : (updatingSessions before.clock token before.sessions).sessionTokenTimers.find
            token = none := by
          rw [updating, quitSession_find, found]
          split <;> rfl
        have set : (armSession token (confirmationTimer before.clock) (updatingSessions before.clock
            token before.sessions)).sessionTokenTimers.find token =
              some (confirmationTimer before.clock) := by
          rw [armSession_find, if_pos ⟨rfl, empty, free⟩]
        exact iff_of_true ⟨armed_iff.mpr fun _ => set, fun _ => set⟩
          ⟨fun _ _ => rfl, fun _ => ⟨returns, empty⟩⟩
    | some details =>
        -- the entry stays, quit, and setting the timer is answered with `true`
        have stays : (updatingSessions before.clock token before.sessions).sessionTokenTimers.find
            token = some { details with QuitFlag := true } := by
          rw [updating, quitSession_find, if_pos ⟨rfl, empty⟩, found]
          rfl
        have answered : setAnswer token (updatingSessions before.clock token before.sessions) =
            true := by
          rw [setAnswer, stays, decide_eq_true empty]
          rfl
        refine iff_of_false (fun both => ?_) fun watches => ?_
        · have live := both.2 answered
          rw [armSession_find, if_neg, stays] at live
          · have quit := congrArg TimerThreadDetails.QuitFlag (Option.some.inj live)
            cases quit
          · intro set
            cases stays.symm.trans set.2.2
        · cases watches.1 returns empty

theorem exact_of_updateRaised {req : Request} {token : Str} {reason : Halt} {manager : Manager}
    (tracked : Tracked before record) (requests : Requests req token before.sessions)
    (free : before.sessions.FreeFor token)
    (halted : processRequest host .success .POST URIRequestPath.RUNNING_UPDATE req.body
      before.manager = .error reason manager) :
    (Armed ⟨before.clock, updatingSessions before.clock token before.sessions, manager⟩
        (some (token, before.clock)) ∧ SetsLive host before (.request req .postRunningUpdate)) ↔
      Watches host (before, record) (.request req .postRunningUpdate) := by
  have raises : ¬ Returns host before req := by
    intro ⟨result, next, ran⟩
    cases halted.symm.trans ran
  have pending := pending_after_update host req.body before.manager
  rw [halted, final_error] at pending
  have missing : (updatingSessions before.clock token before.sessions).sessionTokenTimers.find
      token ≠ some (confirmationTimer before.clock) := by
    rw [updatingSessions_find]
    exact quitSession_missing tracked.named
  have unset : SetsLive host before (.request req .postRunningUpdate) := by
    intro other setting last _ sets
    rw [settingFrom, halted] at sets
    cases sets
  rw [watches_update_iff requests free, armed_iff_of_missing missing]
  constructor
  · intro ⟨unpending, _⟩
    exact ⟨fun returns => (raises returns).elim, fun either =>
      (unpending (pending.mpr either)).elim⟩
  · intro ⟨_, returns⟩
    exact ⟨fun isPending => raises (returns (pending.mp isPending)).1, unset⟩

theorem armed_of_same (armed : Armed before record)
    (pending : after.manager.Pending → before.manager.Pending)
    (timers : ∀ token start, before.sessions.sessionTokenTimers.find token =
      some (confirmationTimer start) → after.sessions.sessionTokenTimers.find token =
        some (confirmationTimer start)) : Armed after record := by
  intro isPending
  obtain ⟨token, start, last, found⟩ := armed (pending isPending)
  exact ⟨token, start, last, timers token start found⟩

/-- Every call keeps a pending candidate armed, and sets a live timer, exactly when the confirmation
is watched. -/
theorem exact_of_outcome (tracked : Tracked before record) (armed : Armed before record)
    (outcome : Outcome host before call after) :
    (Armed after (LastUpdate.note record before call after) ∧ SetsLive host before call) ↔
      Watches host (before, record) call := by
  cases outcome with
  | conflict | registered | read | waited => exact iff_of_true ⟨armed, trivial⟩ trivial
  | @refused req endpoint other refused =>
      rw [note_unaccepted refused]
      cases endpoint with
      | postRunningUpdate =>
          exact iff_of_true ⟨armed, fun token _ _ accepts => (refused token accepts).elim⟩
            fun token accepts => (refused token accepts).elim
      | putCandidate | deleteCandidate =>
          exact iff_of_true ⟨armed, trivial⟩ fun token accepts => (refused token accepts).elim
      | _ => exact iff_of_true ⟨armed, trivial⟩ trivial
  | @removed req token requests =>
      refine iff_of_true ⟨armed_of_same armed id fun query start found => ?_, trivial⟩ trivial
      exact (congrArg (SortedMap.find · query) (touchSession_timers token)).trans found
  | @noted req token requests taken =>
      have refused := unaccepted_of_taken requests taken
      rw [note_unaccepted refused]
      refine iff_of_true ⟨armed_of_same armed id fun query start found => ?_,
        fun other _ _ accepts => (refused other accepts).elim⟩
        fun other accepts => (refused other accepts).elim
      exact (congrArg (SortedMap.find · query) (touchSession_timers token)).trans found
  | @updated req token requests free result manager ran =>
      rw [note_accepted ⟨requests, free⟩]
      exact exact_of_updated tracked requests free ran
  | @updateRaised req token requests free reason manager halted =>
      rw [note_accepted ⟨requests, free⟩]
      exact exact_of_updateRaised tracked requests free halted
  | @concluded req endpoint token files method concluding requests active =>
      have asks : (conclusion host files method).isSome = true :=
        conclusion_of_concluding concluding
      have pending := pending_after_conclude asks req.body before.manager
      have watches : SetsLive host before (.request req endpoint) ∧
          (Watches host (before, record) (.request req endpoint) ↔
            (before.manager.Pending → Concludes host files method before.manager)) ∧
          ∀ after, LastUpdate.note record before (.request req endpoint) after = record := by
        cases endpoint with
        | putCandidate | deleteCandidate =>
            obtain ⟨rfl, rfl⟩ := concluding
            refine ⟨trivial, ⟨fun watches => watches token ⟨requests, active⟩, fun succeeds other _ =>
              succeeds⟩, fun _ => rfl⟩
        | _ => exact concluding.elim
      obtain ⟨live, guard, same⟩ := watches
      obtain ⟨start, rfl⟩ := tracked.active token active
      rw [same, guard, armed_iff_of_missing (quitSession_missing tracked.named)]
      constructor
      · intro ⟨unpending, _⟩ wasPending
        by_contra failed
        exact unpending (pending.mpr ⟨wasPending, failed⟩)
      · intro succeeds
        exact ⟨fun isPending => (pending.mp isPending).2 (succeeds (pending.mp isPending).1), live⟩
  | @expired token isExpired =>
      refine iff_of_true ⟨armed_of_same armed id fun query start found => ?_, trivial⟩ trivial
      exact (congrArg (SortedMap.find · query) (expiredSession_timers ..)).trans found
  | @dropped token quit =>
      refine iff_of_true ⟨armed_of_same armed id fun query start found => ?_, trivial⟩ trivial
      obtain ⟨details, entry, isQuit⟩ := quit
      refine (SortedMap.find_erase ..).trans ((if_neg fun same => ?_).trans found)
      rw [same, entry] at found
      cases Option.some.inj found
      cases isQuit
  | @fired token due =>
      have asks : (conclusion host .success .DEL).isSome = true := rfl
      have pending := pending_after_conclude asks [] before.manager
      constructor
      · intro ⟨stillArmed, _⟩ start last wasPending
        by_contra failed
        obtain ⟨other, when, same, found⟩ := stillArmed (pending.mpr ⟨wasPending, failed⟩)
        cases last.symm.trans same
        have missing : (before.sessions.sessionTokenTimers.erase token).find token = none := by
          rw [SortedMap.find_erase, if_pos rfl]
        cases missing.symm.trans found
      · intro watches
        refine ⟨fun isPending => ?_, trivial⟩
        obtain ⟨wasPending, failed⟩ := pending.mp isPending
        obtain ⟨other, start, last, found⟩ := armed wasPending
        refine ⟨other, start, last, (SortedMap.find_erase ..).trans ((if_neg fun same => ?_).trans
          found)⟩
        exact failed (watches start (same ▸ last) wasPending)

/-- What the observer knows of the active session is kept by every call. -/
theorem tracked_of_outcome (tracked : Tracked before record)
    (outcome : Outcome host before call after) :
    Tracked after (LastUpdate.note record before call after) := by
  cases outcome with
  | conflict | registered | read | waited => exact ⟨tracked.active, tracked.named⟩
  | @refused req endpoint other refused =>
      rw [note_unaccepted refused]
      exact tracked
  | @removed req token requests =>
      refine ⟨fun other isActive => ?_, ?_⟩
      · exact tracked.active other
          ((touchSession_active token).symm.trans (withoutSession_active.mp isActive).2)
      · exact (congrArg (SortedMap.find · []) (touchSession_timers token)).trans tracked.named
  | @noted req token requests taken =>
      have refused := unaccepted_of_taken requests taken
      rw [note_unaccepted refused]
      refine ⟨fun other isActive => ?_, ?_⟩
      · exact tracked.active other ((touchSession_active token).symm.trans isActive)
      · exact (congrArg (SortedMap.find · []) (touchSession_timers token)).trans tracked.named
  | @updated req token requests free result manager ran =>
      rw [note_accepted ⟨requests, free⟩]
      refine ⟨fun other isActive => ?_, armSession_named (updatingSessions_named tracked.named)⟩
      have active := armSession_active.symm.trans isActive
      cases updatingSessions_active.symm.trans active
      exact ⟨before.clock, rfl⟩
  | @updateRaised req token requests free reason manager halted =>
      rw [note_accepted ⟨requests, free⟩]
      refine ⟨fun other isActive => ?_, updatingSessions_named tracked.named⟩
      cases updatingSessions_active.symm.trans isActive
      exact ⟨before.clock, rfl⟩
  | @concluded req endpoint token files method concluding requests active =>
      have same : ∀ after, LastUpdate.note record before (.request req endpoint) after = record := by
        cases endpoint with
        | putCandidate | deleteCandidate => exact fun _ => rfl
        | _ => exact concluding.elim
      rw [same]
      refine ⟨fun other isActive => tracked.active other ?_, quitSession_named tracked.named⟩
      dsimp only at isActive
      rwa [quitSession_eq] at isActive
  | @expired token isExpired =>
      refine ⟨fun other isActive => tracked.active other (expiredSession_active isActive), ?_⟩
      exact (congrArg (SortedMap.find · []) (expiredSession_timers ..)).trans tracked.named
  | @dropped token quit => exact ⟨tracked.active, erased_named tracked.named⟩
  | @fired token due =>
      refine ⟨fun other isActive => ?_, erased_named tracked.named⟩
      exact tracked.active other (RemoveActiveSessionToken_active isActive).2

end Steps

section Runs

variable {host : Host} {server : Server}

/-- Along every sequence of calls a pending candidate is armed by the last update, and a timer that
is said to be set is live, exactly when the confirmation is watched. -/
theorem armed_along_iff {trail : List (Call × (Server × LastUpdate))}
    (started : Started host server)
    (run : Along (Watched (Step host) LastUpdate.note) (server, none) trail) :
    Along (fun before call after => Armed after.1 after.2 ∧ SetsLive host before.1 call)
        (server, none) trail ↔
      Along (fun before call _ => Watches host before call) (server, none) trail := by
  have idle : Tracked server none ∧ Armed server none := by
    refine ⟨⟨fun token active => ?_, ?_⟩, fun isPending => ?_⟩
    · rw [started.sessions] at active
      cases active
    · rw [started.sessions]
      rfl
    · exact (Manager.not_pending_of_loaded started.loaded isPending).elim
  refine along_iff_of_exact (fun state => Tracked state.1 state.2 ∧ Armed state.1 state.2) ?_ ?_ idle
    run
  · intro before call after holds step
    rw [step.2]
    exact exact_of_outcome holds.1 holds.2 (outcome_of_step step.1)
  · intro before call after holds step shown
    refine ⟨?_, shown.1⟩
    rw [step.2]
    exact tracked_of_outcome holds.1 (outcome_of_step step.1)

end Runs

end FlexConfig.Server

namespace FlexConfig.Sample

open Concurrent Server

/-- A session updates twice. -/
def updatedTwice : List Call :=
  [.request (leasing "s") .postSessionToken,
    .request (bearer "s" replaceText) .postRunningUpdate,
    .request (bearer "s" replaceText) .postRunningUpdate]

theorem second_update_unarmed :
    ∃ server ∈ Server.start oneLeafHost oneLeafConfig,
      ¬ Along (fun _ _ after => Armed after.1 after.2) (server, none)
        (follow (noting (serve oneLeafHost) LastUpdate.note) updatedTwice (server, none)) := by
  decide +kernel

/-- The second update cancels the timer of the first, and sets none. -/
theorem pending_without_timer :
    ¬ ∀ (host : Host) (server : Server) (trail : List (Call × (Server × LastUpdate))),
      Started host server →
        Along (Watched (Server.Step host) LastUpdate.note) (server, none) trail →
          Along (fun before call after => Armed after.1 after.2 ∧ SetsLive host before.1 call)
            (server, none) trail := by
  intro armed
  obtain ⟨server, starts, unarmed⟩ := second_update_unarmed
  exact unarmed ((armed oneLeafHost server _ (started_of_start starts)
    (along_follow (watched_of_noting step_of_serve) updatedTwice _)).imp And.left)

/-- A session updates and cancels, the next round drops the timer, and the session updates again. -/
def updatedAgain : List Call :=
  [.request (leasing "s") .postSessionToken,
    .request (bearer "s" replaceText) .postRunningUpdate,
    .request (bearer "s" []) .deleteCandidate,
    .wait 10000000000, .dropTimer "s".toList,
    .request (bearer "s" replaceText) .postRunningUpdate,
    .wait 181000000000, .fire "s".toList]

theorem second_update_armed :
    ∃ server ∈ Server.start oneLeafHost oneLeafConfig,
      let trail := follow (noting (serve oneLeafHost) LastUpdate.note) updatedAgain (server, none)
      trail.length = updatedAgain.length ∧
        Along (fun before call after =>
          Armed after.1 after.2 ∧ SetsLive oneLeafHost before.1 call) (server, none) trail := by
  have watched : ∃ server ∈ Server.start oneLeafHost oneLeafConfig,
      let trail := follow (noting (serve oneLeafHost) LastUpdate.note) updatedAgain (server, none)
      trail.length = updatedAgain.length ∧
        Along (fun before call _ => Watches oneLeafHost before call) (server, none) trail := by
    decide +kernel
  obtain ⟨server, starts, complete, guarded⟩ := watched
  exact ⟨server, starts, complete, (armed_along_iff (started_of_start starts)
    (along_follow (watched_of_noting step_of_serve) updatedAgain _)).mpr guarded⟩

end FlexConfig.Sample
