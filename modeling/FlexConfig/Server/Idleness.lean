import FlexConfig.Server.Calls

/-! # Sessions that expire

A session is to expire when it has made no request for longer than the timeout. Of the checks
with which the handlers begin, that of the active session does not note the time of the
request: a session that only reads, confirms or withdraws its candidate looks idle.
-/

namespace FlexConfig.Server

open Procedure HTTP Concurrent SessionManager

/-- When the last request was accepted as one of the session of a token, and when the last one
that reads, applies or cancels the candidate. -/
structure Activity where
  accepted : Str → Option TimePoint
  candidate : Str → Option TimePoint

namespace Activity

def initial : Activity := ⟨fun _ => none, fun _ => none⟩

/-- The requests about the candidate. -/
def AboutCandidate : Endpoint → Prop
  | .getCandidate | .putCandidate _ | .deleteCandidate => True
  | .postSessionToken | .deleteSessionToken | .getRunning | .postRunningUpdate
  | .postRunningDiff => False

instance : DecidablePred AboutCandidate := fun endpoint => by
  cases endpoint <;> first | exact isTrue trivial | exact isFalse id

/-- Note a request that is accepted; a token that is leased anew begins with none. -/
def note (record : Activity) (before : Server) (call : Call) (_ : Server) : Activity :=
  match call with
  | .request req .postSessionToken =>
    if before.sessions.Leased req.body then record
    else ⟨Function.update record.accepted req.body none,
      Function.update record.candidate req.body none⟩
  | .request req endpoint =>
    match acceptedToken before req endpoint with
    | none => record
    | some token =>
      ⟨Function.update record.accepted token (some before.clock),
        if AboutCandidate endpoint then Function.update record.candidate token (some before.clock)
        else record.candidate⟩
  | _ => record

end Activity

/-- More than the timeout has passed since a time. -/
def LongAgo (server : Server) (time : TimePoint) : Prop :=
  server.clock - time > server.sessions.sessionTimeoutSec * 1000000000

instance (server : Server) (time : TimePoint) : Decidable (LongAgo server time) :=
  inferInstanceAs (Decidable (_ > _))

/-- A call is none of a client. -/
def Call.Internal : Call → Prop
  | .request _ _ => False
  | .expire _ | .dropTimer _ | .fire _ | .wait _ => True

instance (call : Call) : Decidable call.Internal := by
  cases call <;> first | exact isTrue trivial | exact isFalse id

/-- A lease that the checking thread drops is that of a session whose last accepted request was
long ago. -/
def DropsIdle (before : Server × Activity) (call : Call) (after : Server × Activity) : Prop :=
  call.Internal → ∀ token, before.1.sessions.Leased token → ¬ after.1.sessions.Leased token →
    ∀ last, before.2.accepted token = some last → LongAgo before.1 last

instance (before : Server × Activity) (call : Call) (after : Server × Activity) :
    Decidable (DropsIdle before call after) :=
  decidable_of_iff
    (call.Internal → ∀ entry ∈ before.1.sessions.leasedSessionTokens.entries,
      ¬ after.1.sessions.Leased entry.1 → ∀ last ∈ before.2.accepted entry.1,
        LongAgo before.1 last) <| by
    refine imp_congr_right fun _ => ⟨fun all token leased => ?_, fun all entry member => ?_⟩
    · obtain ⟨details, found⟩ := leased_iff.mp leased
      exact all (token, details) (SortedMap.mem_entries_iff.mpr found)
    · exact all entry.1 (leased_iff.mpr ⟨entry.2, SortedMap.mem_entries_iff.mp member⟩)

/-- A session that expires has made its last request about the candidate, if any, long ago, and so
has the session of another token that its header is read as, if there is one, any request. -/
def CandidateLongAgo (before : Server × Activity) : Call → Prop
  | .expire token => (∀ last, before.2.candidate token = some last → LongAgo before.1 last) ∧
    ∀ other, readToken token = some other → other ≠ token → before.1.sessions.Leased other →
      ∀ last, before.2.accepted other = some last → LongAgo before.1 last
  | _ => True

instance (before : Server × Activity) (call : Call) : Decidable (CandidateLongAgo before call) :=
  match call with
  | .expire token =>
    inferInstanceAs (Decidable ((∀ last ∈ before.2.candidate token, LongAgo before.1 last) ∧
      ∀ other ∈ readToken token, other ≠ token → before.1.sessions.Leased other →
        ∀ last ∈ before.2.accepted other, LongAgo before.1 last))
  | .request _ _ | .dropTimer _ | .fire _ | .wait _ => isTrue trivial

/-- The requests of a leased session: the last one was noted, unless it was one about the
candidate, and none is later than now. -/
structure Noted (server : Server) (record : Activity) (token : Str) (details : SessionDetails) :
    Prop where
  noted : ∀ last, record.accepted token = some last →
    last ≤ details.LastRequestAt ∨ record.candidate token = some last
  latest : ∀ last, record.candidate token = some last →
    ∃ accepted, record.accepted token = some accepted ∧ last ≤ accepted
  past : ∀ last, record.accepted token = some last → last ≤ server.clock
  now : details.LastRequestAt ≤ server.clock

/-- What the observer knows of all leased sessions. -/
structure Observed (server : Server) (record : Activity) : Prop where
  timeout : server.sessions.sessionTimeoutSec = 360
  sessions : ∀ token details, server.sessions.leasedSessionTokens.find token = some details →
    Noted server record token details

section Steps

variable {host : Host} {before after : Server} {record : Activity} {call : Call} {req : Request}
  {endpoint : Endpoint} {token : Str}

theorem activity_unaccepted (other : endpoint ≠ .postSessionToken)
    (refused : ∀ token, ¬ Accepts before req endpoint token) :
    Activity.note record before (.request req endpoint) after = record := by
  cases endpoint with
  | postSessionToken => exact (other rfl).elim
  | _ =>
      unfold Activity.note
      dsimp only
      rw [acceptedToken_eq_none.mpr refused]

theorem activity_accepted (accepts : Accepts before req endpoint token) :
    Activity.note record before (.request req endpoint) after =
      ⟨Function.update record.accepted token (some before.clock),
        if Activity.AboutCandidate endpoint then
          Function.update record.candidate token (some before.clock)
        else record.candidate⟩ := by
  cases endpoint with
  | postSessionToken => exact accepts.elim
  | _ =>
      unfold Activity.note
      dsimp only
      rw [acceptedToken_eq_some.mpr accepts]

/-- The requests of other sessions do not count. -/
theorem Noted.of_other {details : SessionDetails} {other : Str} {accepted : Option TimePoint}
    {candidate : Str → Option TimePoint} (noted : Noted before record other details)
    (differs : other ≠ token) (same : candidate other = record.candidate other) :
    Noted before ⟨Function.update record.accepted token accepted, candidate⟩ other details := by
  have kept : Function.update record.accepted token accepted other = record.accepted other :=
    Function.update_of_ne differs ..
  refine ⟨fun last known => ?_, fun last known => ?_, fun last known => ?_, noted.now⟩
  · dsimp only at known ⊢
    rw [same]
    exact noted.noted last (kept.symm.trans known)
  · dsimp only at known ⊢
    rw [kept]
    exact noted.latest last (same.symm.trans known)
  · exact noted.past last (kept.symm.trans known)

/-- A request about the candidate is remembered though it was not noted. -/
theorem Noted.of_candidate {details : SessionDetails} (noted : Noted before record token details) :
    Noted before ⟨Function.update record.accepted token (some before.clock),
      Function.update record.candidate token (some before.clock)⟩ token details := by
  refine ⟨fun last known => Or.inr ?_, fun last known => ⟨last, ?_, Int.le_refl _⟩, fun last known => ?_,
    noted.now⟩
  · dsimp only at known ⊢
    rw [Function.update_self] at known ⊢
    exact known
  · dsimp only at known ⊢
    rw [Function.update_self] at known ⊢
    exact known
  · dsimp only at known
    rw [Function.update_self] at known
    cases known
    exact Int.le_refl _

/-- Any other request was noted. -/
theorem Noted.of_touched {details : SessionDetails} (noted : Noted before record token details) :
    Noted before ⟨Function.update record.accepted token (some before.clock), record.candidate⟩ token
      { details with LastRequestAt := before.clock } := by
  refine ⟨fun last known => Or.inl ?_, fun last known => ⟨before.clock, Function.update_self .., ?_⟩,
    fun last known => ?_, Int.le_refl _⟩
  · dsimp only at known
    rw [Function.update_self] at known
    cases known
    exact Int.le_refl _
  · obtain ⟨accepted, was, below⟩ := noted.latest last known
    exact Int.le_trans below (noted.past accepted was)
  · dsimp only at known
    rw [Function.update_self] at known
    cases known
    exact Int.le_refl _

/-- Accepted requests about the candidate leave the leases alone. -/
theorem Observed.of_candidate (observed : Observed before record)
    (timeout : after.sessions.sessionTimeoutSec = before.sessions.sessionTimeoutSec)
    (clock : after.clock = before.clock)
    (leases : after.sessions.leasedSessionTokens = before.sessions.leasedSessionTokens)
    (accepts : Accepts before req endpoint token) (about : Activity.AboutCandidate endpoint) :
    Observed after (Activity.note record before (.request req endpoint) after) := by
  rw [activity_accepted accepts, if_pos about]
  refine ⟨timeout.trans observed.timeout, fun other details found => ?_⟩
  rw [leases] at found
  have noted := observed.sessions other details found
  have kept : Noted before ⟨Function.update record.accepted token (some before.clock),
      Function.update record.candidate token (some before.clock)⟩ other details := by
    by_cases same : other = token
    · rw [same] at noted ⊢
      exact noted.of_candidate
    · exact noted.of_other same (Function.update_of_ne same ..)
  exact ⟨kept.noted, kept.latest, fun last known => clock ▸ kept.past last known, clock ▸ kept.now⟩

/-- Accepted updates note the time of the request. -/
theorem Observed.of_update (observed : Observed before record)
    (timeout : after.sessions.sessionTimeoutSec = before.sessions.sessionTimeoutSec)
    (clock : after.clock = before.clock)
    (leases : after.sessions.leasedSessionTokens =
      (before.sessions.touchSession before.clock token).leasedSessionTokens)
    (accepts : Accepts before req .postRunningUpdate token) :
    Observed after (Activity.note record before (.request req .postRunningUpdate) after) := by
  have other : ¬ Activity.AboutCandidate .postRunningUpdate := id
  rw [activity_accepted accepts, if_neg other]
  refine ⟨timeout.trans observed.timeout, fun other details found => ?_⟩
  rw [leases] at found
  have kept : Noted before ⟨Function.update record.accepted token (some before.clock),
      record.candidate⟩ other details := by
    by_cases same : other = token
    · rw [same] at found ⊢
      rw [touchSession_find_self] at found
      obtain ⟨was, wasFound, rfl⟩ := Option.map_eq_some_iff.mp found
      exact (observed.sessions token was wasFound).of_touched
    · rw [touchSession_find before.clock same] at found
      exact (observed.sessions other details found).of_other same rfl
  exact ⟨kept.noted, kept.latest, fun last known => clock ▸ kept.past last known, clock ▸ kept.now⟩

/-- Ends of leases and noted times of other requests do not unsettle what is known. -/
theorem Observed.of_fewer (observed : Observed before record)
    (timeout : after.sessions.sessionTimeoutSec = before.sessions.sessionTimeoutSec)
    (clock : before.clock ≤ after.clock)
    (leases : ∀ token details, after.sessions.leasedSessionTokens.find token = some details →
      ∃ was, before.sessions.leasedSessionTokens.find token = some was ∧
        (details.LastRequestAt = was.LastRequestAt ∨ details.LastRequestAt = before.clock)) :
    Observed after record := by
  refine ⟨timeout.trans observed.timeout, fun token details found => ?_⟩
  obtain ⟨was, wasFound, time⟩ := leases token details found
  have noted := observed.sessions token was wasFound
  refine ⟨fun last known => ?_, noted.latest, fun last known =>
    Int.le_trans (noted.past last known) clock, ?_⟩
  · rcases time with same | now
    · rw [same]
      exact noted.noted last known
    · rw [now]
      exact Or.inl (noted.past last known)
  · rcases time with same | now
    · rw [same]
      exact Int.le_trans noted.now clock
    · rw [now]
      exact clock

theorem observed_of_outcome (observed : Observed before record)
    (outcome : Outcome host before call after) :
    Observed after (Activity.note record before call after) := by
  cases outcome with
  | @conflict req leased =>
      have same : Activity.note record before (.request req .postSessionToken) before = record :=
        if_pos leased
      rw [same]
      exact observed
  | @registered req free =>
      unfold Activity.note
      dsimp only
      rw [if_neg free]
      refine ⟨observed.timeout, fun other details found => ?_⟩
      by_cases new : other = req.body
      · cases ((SortedMap.find_insert ..).trans (if_pos new)).symm.trans found
        refine ⟨fun last known => ?_, fun last known => ?_, fun last known => ?_, Int.le_refl _⟩
        all_goals
          dsimp only at known
          rw [new, Function.update_self] at known
          cases known
      · have wasFound := ((SortedMap.find_insert ..).trans (if_neg new)).symm.trans found
        have kept : Noted before ⟨Function.update record.accepted req.body none,
            Function.update record.candidate req.body none⟩ other details :=
          (observed.sessions other details wasFound).of_other new (Function.update_of_ne new ..)
        exact ⟨kept.noted, kept.latest, kept.past, kept.now⟩
  | refused other refused =>
      rw [activity_unaccepted other refused]
      exact observed
  | @removed req token requests =>
      have accepts : Accepts before req .deleteSessionToken token := requests
      have elsewhere : ¬ Activity.AboutCandidate .deleteSessionToken := id
      rw [activity_accepted accepts, if_neg elsewhere]
      refine ⟨(touchSession_timeout ..).trans observed.timeout, fun other details found => ?_⟩
      have still := (SortedMap.find_erase ..).symm.trans found
      split at still
      · cases still
      · next differs =>
          rw [touchSession_find before.clock differs] at still
          have kept : Noted before ⟨Function.update record.accepted token (some before.clock),
              record.candidate⟩ other details :=
            (observed.sessions other details still).of_other differs rfl
          exact ⟨kept.noted, kept.latest, kept.past, kept.now⟩
  | read accepts => exact observed.of_candidate rfl rfl rfl accepts trivial
  | @noted req token requests taken =>
      rw [activity_unaccepted Endpoint.noConfusion (unaccepted_of_taken requests taken)]
      refine observed.of_fewer (touchSession_timeout ..) (Int.le_refl _) fun other details found => ?_
      by_cases same : other = token
      · rw [same] at found ⊢
        have touched := (touchSession_find_self ..).symm.trans found
        obtain ⟨was, wasFound, rfl⟩ := Option.map_eq_some_iff.mp touched
        exact ⟨was, wasFound, Or.inr rfl⟩
      · exact ⟨details, (touchSession_find before.clock same _).symm.trans found, Or.inl rfl⟩
  | @updated req token requests free result manager ran =>
      exact observed.of_update ((armSession_timeout ..).trans (updatingSessions_timeout ..)) rfl
        (armSession_leases.trans updatingSessions_leases) ⟨requests, free⟩
  | @updateRaised req token requests free reason manager halted =>
      exact observed.of_update (updatingSessions_timeout ..) rfl updatingSessions_leases
        ⟨requests, free⟩
  | @concluded req endpoint token files method concluding requests active =>
      have about : Activity.AboutCandidate endpoint ∧ Accepts before req endpoint token := by
        cases endpoint with
        | putCandidate | deleteCandidate => exact ⟨trivial, requests, active⟩
        | _ => exact concluding.elim
      refine observed.of_candidate ?_ rfl (quitSession_leased _) about.2 about.1
      dsimp only
      rw [quitSession_eq]
  | @expired token isExpired =>
      refine observed.of_fewer (expiredSession_timeout ..) (Int.le_refl _) fun other details found =>
        ?_
      have still := (expiredSession_find ..).symm.trans found
      split at still
      · cases still
      · exact ⟨details, still, Or.inl rfl⟩
  | dropped quit =>
      exact observed.of_fewer rfl (Int.le_refl _) fun _ details found => ⟨details, found, Or.inl rfl⟩
  | @fired token due =>
      refine observed.of_fewer ?_ (Int.le_refl _) fun other details found => ⟨details, ?_, Or.inl rfl⟩
      · unfold firedSessions RemoveActiveSessionToken
        dsimp only
        split <;> rfl
      · exact (congrArg (SortedMap.find · other) (RemoveActiveSessionToken_leases token)).symm.trans
          found
  | waited =>
      refine observed.of_fewer rfl ?_ fun _ details found => ⟨details, found, Or.inl rfl⟩
      exact Int.le_add_of_nonneg_right (Int.natCast_nonneg _)

/-- More whole seconds than the timeout are more time than the timeout. -/
theorem longAgo_of_wholeSeconds {duration timeout : Int} (late : wholeSeconds duration > timeout) :
    timeout * 1000000000 < duration := by
  by_contra early
  have below : wholeSeconds duration ≤ (timeout * 1000000000).tdiv 1000000000 :=
    Int.tdiv_le_tdiv (by decide) (Int.not_lt.mp early)
  rw [Int.mul_tdiv_cancel _ (by decide)] at below
  exact Int.not_lt.mpr below late

/-- An expiry drops the lease of an idle session exactly when its last request about the candidate
was long ago. -/
theorem dropsIdle_iff (observed : Observed before record)
    (outcome : Outcome host before call after) (next : Activity) :
    DropsIdle (before, record) call (after, next) ↔ CandidateLongAgo (before, record) call := by
  cases outcome with
  | conflict | registered | refused | removed | read | noted | updated | updateRaised | concluded =>
      exact iff_of_true False.elim trivial
  | dropped | waited =>
      exact iff_of_true (fun _ token leased dropped => (dropped leased).elim) trivial
  | @fired token due =>
      refine iff_of_true (fun _ other leased dropped => (dropped ?_).elim) trivial
      rw [leased_iff] at leased ⊢
      exact (congrArg (∃ details, SortedMap.find · other = some details)
        (RemoveActiveSessionToken_leases token)).mpr leased
  | @expired token isExpired =>
      obtain ⟨details, found, late⟩ := isExpired
      have noted := observed.sessions token details found
      have longAgo := longAgo_of_wholeSeconds late
      constructor
      · intro drops
        refine ⟨fun last known => ?_, fun other read _ leased last known => ?_⟩
        · obtain ⟨accepted, was, below⟩ := noted.latest last known
          have idle := drops trivial token (leased_iff.mpr ⟨details, found⟩)
            (fun leased => (expiredSession_leased.mp leased).1 (.inl rfl)) accepted was
          exact Int.lt_of_lt_of_le idle (Int.sub_le_sub_left below _)
        · exact drops trivial other leased
            (fun still => (expiredSession_leased.mp still).1 (.inr read)) last known
      · intro ⟨candidate, others⟩ _ other leased dropped last known
        have ends : Ends token other := by
          by_contra apart
          exact dropped (expiredSession_leased.mpr ⟨apart, leased⟩)
        by_cases differs : other ≠ token
        · exact others other (ends.resolve_left differs) differs leased last known
        have same : other = token := Decidable.not_not.mp differs
        subst same
        rcases noted.noted last known with below | asked
        · exact Int.lt_of_lt_of_le longAgo (Int.sub_le_sub_left below _)
        · exact candidate last asked

end Steps

section Runs

variable {host : Host} {server : Server}

/-- Along every sequence of calls the checking thread drops the leases of idle sessions only,
exactly when the sessions that expire have made no recent request about the candidate, and no
header of an expired session is read as the token of a busy one. A round of the thread is such a
sequence. -/
theorem drops_idle_along_iff {trail : List (Call × (Server × Activity))}
    (started : Started host server)
    (run : Along (Watched (Step host) Activity.note) (server, Activity.initial) trail) :
    (Along DropsIdle (server, Activity.initial) trail ↔
      Along (fun before call _ => CandidateLongAgo before call) (server, Activity.initial)
        trail) ∧
    ∀ before after, checkExpiration.run (does host) before = .ok PUnit.unit after →
      Relation.ReflTransGen (fun before after => ∃ call, Step host before call after)
        before after := by
  refine ⟨?_, fun _ _ => round_of_checkExpiration⟩
  have fresh : Observed server Activity.initial := by
    refine ⟨?_, fun token details found => ?_⟩
    · rw [started.sessions]
    · rw [started.sessions] at found
      cases found
  refine along_iff_of_exact (fun state => Observed state.1 state.2) ?_ ?_ fresh run
  · intro before call after observed step
    exact dropsIdle_iff observed (outcome_of_step step.1) after.2
  · intro before call after observed step _
    rw [step.2]
    exact observed_of_outcome observed (outcome_of_step step.1)

end Runs

end FlexConfig.Server

namespace FlexConfig.Sample

open Concurrent Server

/-- A session updates, confirms, and 200 seconds later asks again for its candidate to be applied;
a minute after that a round of the checking thread comes. -/
def confirmedAgain : List Call :=
  [.request (leasing "s") .postSessionToken,
    .request (bearer "s" replaceText) .postRunningUpdate, .wait 100000000000,
    .request (bearer "s" []) (.putCandidate .success), .dropTimer "s".toList, .wait 200000000000,
    .request (bearer "s" []) (.putCandidate .success), .wait 61000000000, .expire "s".toList]

/-- The session expires a minute after its last request. -/
theorem busy_session_expires :
    ¬ ∀ (host : Host) (server : Server) (trail : List (Call × (Server × Activity))),
      Started host server →
        Along (Watched (Server.Step host) Activity.note) (server, Activity.initial) trail →
          Along DropsIdle (server, Activity.initial) trail := by
  intro idle
  have expires : ∃ server ∈ Server.start oneLeafHost oneLeafConfig,
      ¬ Along DropsIdle (server, Activity.initial)
        (follow (noting (serve oneLeafHost) Activity.note) confirmedAgain
          (server, Activity.initial)) := by
    decide +kernel
  obtain ⟨server, starts, busy⟩ := expires
  exact busy (idle oneLeafHost server _ (started_of_start starts)
    (along_follow (watched_of_noting step_of_serve) confirmedAgain _))

/-- A session updates, confirms, and is not heard of again. -/
def confirmedOnce : List Call :=
  [.request (leasing "s") .postSessionToken,
    .request (bearer "s" replaceText) .postRunningUpdate, .wait 100000000000,
    .request (bearer "s" []) (.putCandidate .success), .dropTimer "s".toList, .wait 361000000000,
    .expire "s".toList]

theorem idle_session_expires :
    ∃ server ∈ Server.start oneLeafHost oneLeafConfig,
      let trail := follow (noting (serve oneLeafHost) Activity.note) confirmedOnce
        (server, Activity.initial)
      trail.length = confirmedOnce.length ∧ Along DropsIdle (server, Activity.initial) trail := by
  have recent : ∃ server ∈ Server.start oneLeafHost oneLeafConfig,
      let trail := follow (noting (serve oneLeafHost) Activity.note) confirmedOnce
        (server, Activity.initial)
      trail.length = confirmedOnce.length ∧
        Along (fun before call _ => CandidateLongAgo before call) (server, Activity.initial)
          trail := by
    decide +kernel
  obtain ⟨server, starts, complete, guarded⟩ := recent
  exact ⟨server, starts, complete, (drops_idle_along_iff (started_of_start starts)
    (along_follow (watched_of_noting step_of_serve) confirmedOnce _)).1.mpr guarded⟩

end FlexConfig.Sample
