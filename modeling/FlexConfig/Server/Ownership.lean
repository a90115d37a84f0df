import FlexConfig.Server.Calls

/-! # Whose candidate it is

A candidate is to be applied or withdrawn by the session that made it alone: by its requests,
or by its timer. The server knows the tokens of sessions and not the sessions, and it keeps
nowhere which session made the candidate. An observer does: it numbers the sessions as
they are registered, and notes which one made the candidate and which one set each timer.
-/

namespace FlexConfig.Server

open Procedure HTTP Concurrent SessionManager

/-- A session: the token it is leased under, and the number of its registration. -/
structure Session where
  token : Str
  number : Nat
  deriving DecidableEq

/-- What an observer knows of the sessions. -/
structure Ownership where
  registered : Nat
  holder : Str → Nat
  producer : Option Session
  setter : Str → Option Session

namespace Ownership

def initial : Ownership := ⟨0, fun _ => 0, none, fun _ => none⟩

/-- The last session registered under a token. -/
def session (record : Ownership) (token : Str) : Session := ⟨token, record.holder token⟩

variable (host : Host)

/-- A call put a new entry into the table of timers. -/
def TimerSet (before after : Server) (token : Str) : Prop :=
  before.sessions.sessionTokenTimers.find token = none ∧
    after.sessions.sessionTokenTimers.find token ≠ none

instance (before after : Server) (token : Str) : Decidable (TimerSet before after token) :=
  instDecidableAnd

/-- Note what a call has changed. -/
def note (record : Ownership) (before : Server) (call : Call) (after : Server) : Ownership :=
  match call with
  | .request req .postSessionToken =>
    if before.sessions.Leased req.body then record
    else { record with
      registered := record.registered + 1
      holder := Function.update record.holder req.body (record.registered + 1) }
  | .request req .postRunningUpdate =>
    match acceptedToken before req .postRunningUpdate with
    | none => record
    | some token =>
      { record with
        producer :=
          if Succeeds host req.body before.manager then some (record.session token) else record.producer
        setter :=
          if TimerSet before after token then
            Function.update record.setter token (some (record.session token))
          else record.setter }
  | _ => record

/-- The session by whose request or timer a call ends the confirmation of a candidate. -/
def concluder (record : Ownership) (server : Server) : Call → Option Session
  | .request req (.putCandidate files) =>
    (acceptedToken server req (.putCandidate files)).map record.session
  | .request req .deleteCandidate =>
    (acceptedToken server req .deleteCandidate).map record.session
  | .fire token => record.setter token
  | _ => none

end Ownership

open Ownership

/-- A candidate that is applied or withdrawn is so by the session that made it. -/
def ConcludedByProducer (before : Server × Ownership) (call : Call) (after : Server × Ownership) :
    Prop :=
  before.1.manager.Pending → ¬ after.1.manager.Pending →
    before.2.producer.isSome = true ∧ concluder before.2 before.1 call = before.2.producer

instance (before : Server × Ownership) (call : Call) (after : Server × Ownership) :
    Decidable (ConcludedByProducer before call after) :=
  inferInstanceAs (Decidable (_ → _ → _ ∧ _))

/-- A session takes no other's place: an update that is accepted while the candidate of another
session is pending makes a new one, it makes one only when no other token has a live timer, and no
token is leased anew that is the active one while a candidate is pending. -/
def KeepsApart (host : Host) (before : Server × Ownership) : Call → Prop
  | .request req .postRunningUpdate =>
    ∀ token, Accepts before.1 req .postRunningUpdate token →
      (before.1.manager.Pending →
        before.2.producer = some (before.2.session token) ∨ Succeeds host req.body before.1.manager) ∧
      (Succeeds host req.body before.1.manager → ∀ other details,
        before.1.sessions.sessionTokenTimers.find other = some details →
          details.QuitFlag = false → other = token)
  | .request req .postSessionToken =>
    before.1.manager.Pending → before.1.sessions.activeSessionToken = some req.body →
      before.1.sessions.Leased req.body
  | _ => True

instance (host : Host) (before : Server × Ownership) (call : Call) :
    Decidable (KeepsApart host before call) :=
  match call with
  | .request req .postRunningUpdate =>
    decidable_of_iff
      (∀ token ∈ acceptedToken before.1 req .postRunningUpdate,
        (before.1.manager.Pending →
          before.2.producer = some (before.2.session token) ∨ Succeeds host req.body before.1.manager) ∧
        (Succeeds host req.body before.1.manager → ∀ entry ∈ before.1.sessions.sessionTokenTimers.entries,
          entry.2.QuitFlag = false → entry.1 = token)) <| by
      refine forall_congr' fun token => imp_congr acceptedToken_eq_some ?_
      refine and_congr_right' (imp_congr_right fun _ => ?_)
      rw [Prod.forall]
      exact forall₂_congr fun other details => imp_congr_left SortedMap.mem_entries_iff
  | .request req .postSessionToken =>
    inferInstanceAs (Decidable (before.1.manager.Pending →
      before.1.sessions.activeSessionToken = some req.body → before.1.sessions.Leased req.body))
  | .request _ .deleteSessionToken | .request _ .getRunning | .request _ .postRunningDiff
  | .request _ .getCandidate | .request _ (.putCandidate _) | .request _ .deleteCandidate
  | .expire _ | .dropTimer _ | .fire _ | .wait _ => isTrue trivial

/-- The candidate and the timers belong to the active session: if it is leased it has made the
candidate that is pending, and the session that made it has set all timers that are live. -/
structure Owned (server : Server) (record : Ownership) : Prop where
  active : ∀ token, server.manager.Pending → server.sessions.activeSessionToken = some token →
    server.sessions.Leased token → record.producer = some (record.session token)
  timers : ∀ token details, server.manager.Pending →
    server.sessions.sessionTokenTimers.find token = some details → details.QuitFlag = false →
      record.producer.isSome = true ∧ record.setter token = record.producer
  named : server.sessions.sessionTokenTimers.find [] = none

section Steps

variable {host : Host} {before after : Server} {record : Ownership} {call : Call}

/-- A call that makes no candidate pending, sets no timer and leases no token keeps the candidate
and the timers with the active session. -/
theorem Owned.of_less (owned : Owned before record)
    (pending : after.manager.Pending → before.manager.Pending)
    (active : ∀ token, after.sessions.activeSessionToken = some token →
      before.sessions.activeSessionToken = some token)
    (leased : ∀ token, after.sessions.Leased token → before.sessions.Leased token)
    (live : ∀ token details, after.sessions.sessionTokenTimers.find token = some details →
      details.QuitFlag = false → before.sessions.sessionTokenTimers.find token = some details)
    (named : after.sessions.sessionTokenTimers.find [] = none) : Owned after record := by
  refine ⟨fun token isPending isActive isLeased => ?_, fun token details isPending found isLive =>
    ?_, named⟩
  · exact owned.active token (pending isPending) (active token isActive) (leased token isLeased)
  · exact owned.timers token details (pending isPending) (live token details found isLive) isLive

theorem acceptedToken_of_requests {req : Request} {token : Str}
    (requests : Requests req token before.sessions) (free : before.sessions.FreeFor token) :
    acceptedToken before req .postRunningUpdate = some token :=
  acceptedToken_eq_some.mpr ⟨requests, free⟩

/-- The record after an update that was accepted. -/
theorem note_update {req : Request} {token : Str} (requests : Requests req token before.sessions)
    (free : before.sessions.FreeFor token) :
    note host record before (.request req .postRunningUpdate) after =
      { record with
        producer :=
          if Succeeds host req.body before.manager then some (record.session token) else record.producer
        setter :=
          if TimerSet before after token then
            Function.update record.setter token (some (record.session token))
          else record.setter } := by
  unfold note
  dsimp only
  rw [acceptedToken_of_requests requests free]

/-- After an update its session has made the candidate that is pending, if one is. -/
theorem owned_of_update {req : Request} {token : Str} (owned : Owned before record)
    (requests : Requests req token before.sessions) (free : before.sessions.FreeFor token)
    (apart : KeepsApart host (before, record) (.request req .postRunningUpdate))
    (pending : after.manager.Pending → Succeeds host req.body before.manager ∨ before.manager.Pending)
    (active : after.sessions.activeSessionToken = some token)
    (live : ∀ query details, after.sessions.sessionTokenTimers.find query = some details →
      details.QuitFlag = false →
        (query ≠ token ∧ before.sessions.sessionTokenTimers.find query = some details) ∨
          (query = token ∧ before.sessions.sessionTokenTimers.find token = none))
    (named : after.sessions.sessionTokenTimers.find [] = none) :
    Owned after (note host record before (.request req .postRunningUpdate) after) := by
  obtain ⟨own, alone⟩ := apart token ⟨requests, free⟩
  rw [note_update requests free]
  have produced : after.manager.Pending →
      (if Succeeds host req.body before.manager then some (record.session token) else record.producer) =
        some (record.session token) := by
    intro isPending
    by_cases succeeds : Succeeds host req.body before.manager
    · rw [if_pos succeeds]
    · rw [if_neg succeeds]
      have wasPending := (pending isPending).resolve_left succeeds
      exact (own wasPending).resolve_right succeeds
  refine ⟨fun other isPending isActive _ => ?_, fun query details isPending found isLive => ?_, named⟩
  · cases active.symm.trans isActive
    exact produced isPending
  · dsimp only
    rcases live query details found isLive with ⟨differs, wasLive⟩ | ⟨rfl, none⟩
    · have failed : ¬ Succeeds host req.body before.manager := fun succeeds =>
        differs (alone succeeds query details wasLive isLive)
      have wasPending := (pending isPending).resolve_left failed
      obtain ⟨known, same⟩ := owned.timers query details wasPending wasLive isLive
      rw [if_neg failed]
      refine ⟨known, ?_⟩
      split
      · rw [Function.update_of_ne differs]
        exact same
      · exact same
    · have set : TimerSet before after query := ⟨none, by rw [found]; exact Option.some_ne_none _⟩
      rw [produced isPending, if_pos set, Function.update_self]
      exact ⟨rfl, rfl⟩

theorem owned_of_outcome (owned : Owned before record) (outcome : Outcome host before call after)
    (apart : KeepsApart host (before, record) call) :
    Owned after (note host record before call after) := by
  cases outcome with
  | @conflict req leased =>
      have same : note host record before (.request req .postSessionToken) before = record :=
        if_pos leased
      rw [same]
      exact owned
  | @registered req free =>
      unfold note
      dsimp only
      rw [if_neg free]
      refine ⟨fun token isPending isActive isLeased => ?_, owned.timers, owned.named⟩
      by_cases new : token = req.body
      · cases new
        exact (free (apart isPending isActive)).elim
      · have wasLeased : before.sessions.Leased token := by
          rw [leased_iff] at isLeased ⊢
          obtain ⟨details, found⟩ := isLeased
          exact ⟨details, ((SortedMap.find_insert ..).trans (if_neg new)).symm.trans found⟩
        have produced := owned.active token isPending isActive wasLeased
        unfold session
        dsimp only
        rw [Function.update_of_ne new]
        exact produced
  | @refused req endpoint other refused =>
      have same : note host record before (.request req endpoint) before = record := by
        cases endpoint with
        | postSessionToken => exact (other rfl).elim
        | postRunningUpdate =>
            unfold note
            dsimp only
            rw [acceptedToken_eq_none.mpr refused]
        | _ => rfl
      rw [same]
      exact owned
  | @removed req token requests =>
      refine owned.of_less id (fun other isActive => ?_) (fun other isLeased => ?_)
        (fun query details found _ => ?_) ?_
      · exact (touchSession_active token).symm.trans (withoutSession_active.mp isActive).2
      · exact (touchSession_leased token other).mp (withoutSession_leased.mp isLeased).2
      · exact (congrArg (SortedMap.find · query) (touchSession_timers token)).symm.trans found
      · exact (congrArg (SortedMap.find · []) (touchSession_timers token)).trans owned.named
  | read accepts => exact owned
  | @noted req token requests taken =>
      unfold note
      dsimp only
      rw [acceptedToken_eq_none.mpr (unaccepted_of_taken requests taken)]
      refine owned.of_less id (fun other isActive => ?_) (fun other isLeased => ?_)
        (fun query details found _ => ?_) ?_
      · exact (touchSession_active token).symm.trans isActive
      · exact (touchSession_leased token other).mp isLeased
      · exact (congrArg (SortedMap.find · query) (touchSession_timers token)).symm.trans found
      · exact (congrArg (SortedMap.find · []) (touchSession_timers token)).trans owned.named
  | @updated req token requests free result manager ran =>
      have pending := pending_after_update host req.body before.manager
      rw [ran, final_ok] at pending
      refine owned_of_update owned requests free apart (fun isPending => (pending.mp isPending).symm)
        ?_ ?_ ?_
      · rw [armSession_active]
        exact updatingSessions_active
      · intro query details found isLive
        exact (live_of_update owned.named found isLive).imp_right fun set => ⟨set.1, set.2.1⟩
      · exact armSession_named (updatingSessions_named owned.named)
  | @updateRaised req token requests free reason manager halted =>
      have pending := pending_after_update host req.body before.manager
      rw [halted, final_error] at pending
      refine owned_of_update owned requests free apart (fun isPending => (pending.mp isPending).symm)
        updatingSessions_active ?_ (updatingSessions_named owned.named)
      intro query details found isLive
      rw [updatingSessions_find] at found
      exact Or.inl (live_of_quitSession owned.named found isLive)
  | @concluded req endpoint token files method concluding requests active =>
      have same : ∀ after, note host record before (.request req endpoint) after = record := by
        cases endpoint with
        | putCandidate | deleteCandidate => exact fun _ => rfl
        | _ => exact concluding.elim
      rw [same]
      have asks : (conclusion host files method).isSome = true :=
        conclusion_of_concluding concluding
      refine owned.of_less
        (fun isPending => ((pending_after_conclude asks req.body before.manager).mp isPending).1)
        (fun other isActive => ?_) (fun other isLeased => ?_)
        (fun query details found isLive => ?_) (quitSession_named owned.named)
      · dsimp only at isActive
        rwa [quitSession_eq] at isActive
      · dsimp only at isLeased
        rw [quitSession_eq] at isLeased
        exact isLeased
      · exact (live_of_quitSession owned.named found isLive).2
  | @expired token isExpired =>
      refine owned.of_less id (fun other => expiredSession_active)
        (fun other isLeased => (expiredSession_leased.mp isLeased).2)
        (fun query details found _ => ?_) ?_
      · exact (congrArg (SortedMap.find · query) (expiredSession_timers ..)).symm.trans found
      · exact (congrArg (SortedMap.find · []) (expiredSession_timers ..)).trans owned.named
  | @dropped token quit =>
      exact owned.of_less id (fun _ => id) (fun _ => id) (fun _ _ found _ => find_of_erased found)
        (erased_named owned.named)
  | @fired token due =>
      have asks : (conclusion host .success .DEL).isSome = true := rfl
      refine owned.of_less
        (fun isPending => ((pending_after_conclude asks [] before.manager).mp isPending).1)
        (fun other isActive => (RemoveActiveSessionToken_active isActive).2)
        (fun other isLeased => ?_) (fun _ _ found _ => find_of_erased found)
        (erased_named owned.named)
      have leased := leased_iff.mp isLeased
      rw [leased_iff]
      exact (congrArg (∃ details, SortedMap.find · other = some details)
        (RemoveActiveSessionToken_leases token)).mp leased
  | waited => exact ⟨owned.active, owned.timers, owned.named⟩

/-- A call that ends the confirmation of a candidate is one of the session that made it. -/
theorem concluded_of_outcome (owned : Owned before record)
    (outcome : Outcome host before call after) (next : Ownership) :
    ConcludedByProducer (before, record) call (after, next) := by
  intro wasPending isConcluded
  cases outcome with
  | conflict | registered | refused | removed | read | noted | expired | dropped | waited =>
      exact (isConcluded wasPending).elim
  | @updated req token requests free result manager ran =>
      have pending := pending_after_update host req.body before.manager
      rw [ran, final_ok] at pending
      exact (isConcluded (pending.mpr (Or.inl wasPending))).elim
  | @updateRaised req token requests free reason manager halted =>
      have pending := pending_after_update host req.body before.manager
      rw [halted, final_error] at pending
      exact (isConcluded (pending.mpr (Or.inl wasPending))).elim
  | @concluded req endpoint token files method concluding requests active =>
      have produced := owned.active token wasPending active requests.leased
      have by_token : concluder record before (.request req endpoint) =
          some (record.session token) := by
        cases endpoint with
        | putCandidate outcome =>
            have accepts : Accepts before req (.putCandidate outcome) token := ⟨requests, active⟩
            exact congrArg (Option.map record.session) (acceptedToken_eq_some.mpr accepts)
        | deleteCandidate =>
            have accepts : Accepts before req .deleteCandidate token := ⟨requests, active⟩
            exact congrArg (Option.map record.session) (acceptedToken_eq_some.mpr accepts)
        | _ => exact concluding.elim
      refine ⟨?_, by_token.trans produced.symm⟩
      rw [produced]
      rfl
  | @fired token due =>
      obtain ⟨details, found, isDue⟩ := due
      have live : details.QuitFlag = false := by
        cases quit : details.QuitFlag with
        | false => rfl
        | true =>
            rw [Due, quit] at isDue
            cases isDue
      exact owned.timers token details wasPending found live

end Steps

section Runs

variable {host : Host} {server : Server}

theorem Started.owned (started : Started host server) : Owned server Ownership.initial := by
  have none : ∀ token, server.sessions.sessionTokenTimers.find token = none := by
    rw [started.sessions]
    exact fun _ => rfl
  refine ⟨fun token _ active => ?_, fun token details _ found => ?_, none []⟩
  · rw [started.sessions] at active
    cases active
  · cases (none token).symm.trans found

/-- In every sequence of calls in which the sessions are kept apart, a candidate that is applied
or withdrawn is so by the session that made it. -/
theorem candidate_concluded_by_producer {trail : List (Call × (Server × Ownership))}
    (started : Started host server)
    (run : Along (Watched (Step host) (note host)) (server, Ownership.initial) trail)
    (apart : Along (fun before call _ => KeepsApart host before call) (server, Ownership.initial)
      trail) : Along ConcludedByProducer (server, Ownership.initial) trail := by
  refine along_of_invariant (fun state => Owned state.1 state.2) ?_ started.owned run apart
  intro before call after owned step apart
  have outcome := outcome_of_step step.1
  refine ⟨?_, concluded_of_outcome owned outcome after.2⟩
  rw [step.2]
  exact owned_of_outcome owned outcome apart

end Runs

end FlexConfig.Server

namespace FlexConfig.Sample

open Concurrent Server

/-- A session ends while its candidate is pending, and another one fails to update and confirms. -/
def inherited : List Call :=
  [.request (leasing "x") .postSessionToken,
    .request (bearer "x" replaceText) .postRunningUpdate,
    .request (bearer "x" []) .deleteSessionToken,
    .request (leasing "y") .postSessionToken,
    .request (bearer "y" "no patch".toList) .postRunningUpdate,
    .request (bearer "y" []) (.putCandidate .success)]

/-- The second session applies the candidate of the first. -/
theorem candidate_of_other_applied :
    ¬ ∀ (host : Host) (server : Server) (trail : List (Call × (Server × Ownership))),
      Started host server →
        Along (Watched (Server.Step host) (Ownership.note host)) (server, Ownership.initial) trail →
          Along ConcludedByProducer (server, Ownership.initial) trail := by
  intro concluded
  have other : ∃ server ∈ Server.start oneLeafHost oneLeafConfig,
      ¬ Along ConcludedByProducer (server, Ownership.initial)
        (follow (noting (serve oneLeafHost) (Ownership.note oneLeafHost)) inherited
          (server, Ownership.initial)) := by
    decide +kernel
  obtain ⟨server, starts, foreign⟩ := other
  exact foreign (concluded oneLeafHost server _ (started_of_start starts)
    (along_follow (watched_of_noting step_of_serve) inherited _))

/-- A session's update is withdrawn by its timer, and another session, refused before, updates and
confirms. -/
def apart : List Call :=
  [.request (leasing "x") .postSessionToken,
    .request (leasing "y") .postSessionToken,
    .request (bearer "x" replaceText) .postRunningUpdate,
    .request (bearer "y" replaceText) .postRunningUpdate,
    .wait 181000000000, .fire "x".toList,
    .request (bearer "y" replaceText) .postRunningUpdate,
    .request (bearer "y" []) (.putCandidate .success)]

theorem candidate_of_own_applied :
    ∃ server ∈ Server.start oneLeafHost oneLeafConfig,
      let trail := follow (noting (serve oneLeafHost) (Ownership.note oneLeafHost)) apart
        (server, Ownership.initial)
      trail.length = apart.length ∧
        Along ConcludedByProducer (server, Ownership.initial) trail := by
  have kept : ∃ server ∈ Server.start oneLeafHost oneLeafConfig,
      let trail := follow (noting (serve oneLeafHost) (Ownership.note oneLeafHost)) apart
        (server, Ownership.initial)
      trail.length = apart.length ∧
        Along (fun before call _ => KeepsApart oneLeafHost before call)
          (server, Ownership.initial) trail := by
    decide +kernel
  obtain ⟨server, starts, complete, guarded⟩ := kept
  exact ⟨server, starts, complete, candidate_concluded_by_producer (started_of_start starts)
    (along_follow (watched_of_noting step_of_serve) apart _) guarded⟩

end FlexConfig.Sample
