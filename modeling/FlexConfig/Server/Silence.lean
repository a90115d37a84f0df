import FlexConfig.Server.Idleness

/-! # What a round of the checking thread does

A round that no request interrupts ends the leases of the sessions that have expired, drops the
timers that were quit and fires those that are due. After a silence that is long enough, no lease
and no timer is left after a round, and the slot of the active session is free again.
-/

namespace FlexConfig.Server

open Procedure HTTP Concurrent SessionManager

/-- A token whose header is read as the token: it has no line break and no NUL. -/
def MakesHeader (session_token : Str) : Prop := readToken session_token = some session_token

instance (session_token : Str) : Decidable (MakesHeader session_token) :=
  inferInstanceAs (Decidable (_ = _))

/-- A withdrawal of the candidate, whatever comes of it. -/
def withdrawn (host : Host) (manager : Manager) : Manager :=
  final (processRequest host .success .DEL URIRequestPath.CANDIDATE [] manager)

theorem RemoveActiveSessionToken_timeout (session_token : Str) (sessions : SessionManager) :
    (sessions.RemoveActiveSessionToken session_token).sessionTimeoutSec =
      sessions.sessionTimeoutSec := by
  unfold RemoveActiveSessionToken
  split <;> rfl

/-- How a server has changed when the leases of some sessions were ended, some timers dropped and
others fired. -/
structure Effect (host : Host) (server : Server) (ended dropped fired : List Str) (now : Server) :
    Prop where
  clock : now.clock = server.clock
  timeout : now.sessions.sessionTimeoutSec = server.sessions.sessionTimeoutSec
  manager : now.manager = (withdrawn host)^[fired.length] server.manager
  leases : ∀ token, now.sessions.leasedSessionTokens.find token =
    if ∃ session_token ∈ ended, Ends session_token token then none
    else server.sessions.leasedSessionTokens.find token
  timers : ∀ token, now.sessions.sessionTokenTimers.find token =
    if token ∈ dropped ++ fired then none else server.sessions.sessionTokenTimers.find token
  active : ∀ token, now.sessions.activeSessionToken = some token ↔
    server.sessions.activeSessionToken = some token ∧
      ¬ (server.sessions.Leased token ∧
        ∃ session_token ∈ ended, readToken session_token = some token) ∧
      token ∉ fired

namespace Effect

variable {host : Host} {server now : Server} {ended dropped fired : List Str}
  {token session_token : Str}

theorem none (host : Host) (server : Server) : Effect host server [] [] [] server where
  clock := rfl
  timeout := rfl
  manager := rfl
  leases := fun _ => by simp
  timers := fun _ => rfl
  active := fun _ => by simp

/-- What is gone with the elements of a longer list is gone with the last one or was gone before. -/
theorem find_of_longer {α : Type} {found : Str → Option α} {done : List Str} {left : Option α}
    (self : token = session_token → left = Option.none)
    (other : token ≠ session_token → left = if token ∈ done then Option.none else found token) :
    left = if token ∈ done ++ [session_token] then Option.none else found token := by
  by_cases same : token = session_token
  · rw [if_pos (List.mem_append_right _ (List.mem_singleton.mpr same))]
    exact self same
  · rw [other same]
    refine if_congr ?_ rfl rfl
    rw [List.mem_append, List.mem_singleton, or_iff_left same]

/-- The sessions that have a lease yet are those whose leases were not ended. -/
theorem leased (effect : Effect host server ended dropped fired now) (token : Str) :
    now.sessions.Leased token ↔
      server.sessions.Leased token ∧ ¬ ∃ session_token ∈ ended, Ends session_token token := by
  rw [leased_iff, leased_iff, effect.leases]
  split <;> simp [*]

theorem expire (effect : Effect host server ended dropped fired now) (session_token : Str) :
    Effect host server (ended ++ [session_token]) dropped fired
      { now with sessions := expiredSession now.clock session_token now.sessions } where
  clock := effect.clock
  timeout := (expiredSession_timeout ..).trans effect.timeout
  manager := effect.manager
  leases := fun token => by
    rw [expiredSession_find, effect.leases]
    by_cases last : Ends session_token token
    · rw [if_pos last, if_pos ⟨session_token, by simp, last⟩]
    · rw [if_neg last]
      refine if_congr ?_ rfl rfl
      simp [or_and_right, exists_or, last]
  timers := fun token => by
    rw [expiredSession_timers]
    exact effect.timers token
  active := fun token => by
    rw [expiredSession_active_iff, effect.active, effect.leased]
    simp only [List.mem_append, List.mem_singleton, or_and_right, exists_or, exists_eq_left]
    constructor
    · rintro ⟨⟨active, notEnded, notFired⟩, notLast⟩
      refine ⟨active, fun ⟨leased, reads⟩ => ?_, notFired⟩
      rcases reads with earlier | last
      · exact notEnded ⟨leased, earlier⟩
      · refine notLast ⟨⟨leased, fun ⟨other, member, ends⟩ => notEnded ⟨leased, other, member, ?_⟩⟩,
          last⟩
        -- a lease that is ended under its own token has a header that is read as it
        rcases ends with rfl | read
        · exact readToken_read last
        · exact read
    · rintro ⟨active, notEnded, notFired⟩
      exact ⟨⟨active, fun ⟨leased, earlier⟩ => notEnded ⟨leased, .inl earlier⟩, notFired⟩,
        fun ⟨⟨leased, _⟩, last⟩ => notEnded ⟨leased, .inr last⟩⟩

theorem drop (effect : Effect host server ended dropped [] now) (session_token : Str) :
    Effect host server ended (dropped ++ [session_token]) []
      { now with
        sessions := { now.sessions with
          sessionTokenTimers := now.sessions.sessionTokenTimers.erase session_token } } where
  clock := effect.clock
  timeout := effect.timeout
  manager := effect.manager
  leases := effect.leases
  timers := fun token => by
    rw [List.append_nil]
    refine find_of_longer (fun same => ?_) fun differs => ?_
    · rw [SortedMap.find_erase, if_pos same]
    · rw [SortedMap.find_erase, if_neg differs, effect.timers, List.append_nil]
  active := effect.active

/-- A timer that fires withdraws the candidate and frees the slot of its session. -/
theorem fire (effect : Effect host server ended dropped fired now) {next : Server}
    (ran : fireTimer host session_token now = .ok ⟨⟩ next) :
    Effect host server ended dropped (fired ++ [session_token]) next := by
  have outcome : next = { now with
      manager := withdrawn host now.manager
      sessions := firedSessions session_token now.sessions } := by
    rcases fireTimer_cases host session_token now with
      ⟨_, _, _, _, answered, returned⟩ | ⟨_, _, _, _, _, halted⟩ | ⟨_, halted⟩
    · cases returned.symm.trans ran
      rw [withdrawn, answered]
      rfl
    · cases halted.symm.trans ran
    · cases halted.symm.trans ran
  rw [outcome]
  exact {
    clock := effect.clock
    timeout := (RemoveActiveSessionToken_timeout ..).trans effect.timeout
    manager := by
      rw [effect.manager, List.length_append, List.length_singleton,
        Function.iterate_succ_apply']
    leases := fun token => by
      refine (congrArg (·.find token) (RemoveActiveSessionToken_leases session_token)).trans ?_
      exact effect.leases token
    timers := fun token => by
      rw [← List.append_assoc]
      refine (SortedMap.find_erase ..).trans (find_of_longer (fun same => ?_) fun differs => ?_)
      · rw [if_pos same]
      · rw [if_neg differs]
        exact effect.timers token
    active := fun token => by
      have slot : (firedSessions session_token now.sessions).activeSessionToken = some token ↔
          now.sessions.activeSessionToken = some token ∧ token ≠ session_token := by
        refine ⟨fun still => (RemoveActiveSessionToken_active still).symm, ?_⟩
        rintro ⟨active, differs⟩
        change (now.sessions.RemoveActiveSessionToken session_token).activeSessionToken = _
        unfold RemoveActiveSessionToken
        rw [if_neg, active]
        intro same
        exact differs (Option.some.inj (active.symm.trans same))
      rw [slot, effect.active, List.mem_append, List.mem_singleton, not_or]
      exact ⟨fun ⟨⟨active, notEnded, notFired⟩, differs⟩ => ⟨active, notEnded, notFired, differs⟩,
        fun ⟨active, notEnded, notFired, differs⟩ => ⟨⟨active, notEnded, notFired⟩, differs⟩⟩ }

end Effect

section Round

variable {host : Host} {server next : Server}

/-- What a round has done, once it returns. -/
theorem effect_of_round (ran : checkExpiration.run (does host) server = .ok PUnit.unit next) :
    ∃ ended dropped fired, Effect host server ended dropped fired next ∧ fired.Nodup ∧
      (∀ token, token ∈ ended ↔ Expired server token) ∧
      (∀ token, token ∈ dropped ↔ HasTimer TimerThreadDetails.QuitFlag server token) ∧
      ∀ token, token ∈ fired ↔ HasTimer (Due server.clock) server token := by
  have read : (ask .now).run (does host) server = .ok server.clock server := rfl
  have listed : (ask (.expiredSessions server.clock)).run (does host) server = .ok _ server :=
    (congrFun (run_ask _) server).trans
      (onSessions_of_ok (expiredSessions_eq server.clock server.sessions))
  rw [checkExpiration, run_bind_of_ok read, run_bind_of_ok listed, Routine.run_bind] at ran
  obtain ⟨_, expiries, endedAll, ran⟩ := bind_eq_ok.mp ran
  have swept : (ask (.sweepTimers server.clock)).run (does host) expiries = .ok _ expiries :=
    (congrFun (run_ask _) expiries).trans
      (onSessions_of_ok (sweepTimers_eq server.clock expiries.sessions))
  rw [run_bind_of_ok swept, Routine.run_bind] at ran
  obtain ⟨_, drops, droppedAll, firedAll⟩ := bind_eq_ok.mp ran
  have isExpired : ∀ token, token ∈ (server.sessions.leasedSessionTokens.keysWhere fun details =>
      wholeSeconds (server.clock - details.LastRequestAt) >
        server.sessions.sessionTimeoutSec).reverse ↔ Expired server token := by
    intro token
    rw [List.mem_reverse, SortedMap.mem_keysWhere]
    simp only [decide_eq_true_eq, Expired]
  have first := Routine.invariant_of_forEach
    (fun done now => Effect host server done [] [] now)
    (fun {done item rest before after} _ effect ran => by
      cases (run_expire host before item).symm.trans ran
      exact effect.expire item) (Effect.none host server) endedAll
  have second := Routine.invariant_of_forEach
    (fun done now => Effect host server _ done [] now)
    (fun {done item rest before after} _ effect ran => by
      cases (congrFun (run_ask _) before).symm.trans ran
      exact effect.drop item) first droppedAll
  have third := Routine.invariant_of_forEach
    (fun done now => Effect host server _ _ done now)
    (fun {done item rest before after} _ effect ran => by
      have returned : fireTimer host item before = .ok PUnit.unit after :=
        (congrFun (run_ask _) before).symm.trans ran
      exact effect.fire returned) second firedAll
  have sameTimers : ∀ test token, (token ∈
      (expiries.sessions.sessionTokenTimers.keysWhere test).reverse ↔
        HasTimer test server token) := by
    intro test token
    rw [List.mem_reverse, SortedMap.mem_keysWhere, first.timers]
    rfl
  exact ⟨_, _, _, third, List.nodup_reverse.mpr (SortedMap.keysWhere_nodup ..), isExpired,
    sameTimers _, sameTimers _⟩

instance (test : TimerThreadDetails → Bool) (server : Server) (token : Str) :
    Decidable (HasTimer test server token) :=
  inferInstanceAs (Decidable (∃ details ∈ server.sessions.sessionTokenTimers.find token, _))

/-- A round that returns has ended the leases of the sessions that had expired and of those that
their headers are read as, and no others, dropped the timers that were quit or due and no others,
and withdrawn the candidate once for each timer that was due. The slot of the active session is
free where its timer was due, or where the header of an expired session is read as its token and
it was leased. -/
theorem checkExpiration_exact
    (ran : checkExpiration.run (does host) server = .ok PUnit.unit next) :
    next.clock = server.clock ∧
    (∀ token details, next.sessions.leasedSessionTokens.find token = some details ↔
      server.sessions.leasedSessionTokens.find token = some details ∧
        ¬ ∃ session_token, Expired server session_token ∧ Ends session_token token) ∧
    (∀ token, next.sessions.sessionTokenTimers.find token =
      if HasTimer TimerThreadDetails.QuitFlag server token ∨ HasTimer (Due server.clock) server token
      then none else server.sessions.sessionTokenTimers.find token) ∧
    (∀ token, next.sessions.activeSessionToken = some token ↔
      server.sessions.activeSessionToken = some token ∧
        ¬ (server.sessions.Leased token ∧
          ∃ session_token, Expired server session_token ∧ readToken session_token = some token) ∧
        ¬ HasTimer (Due server.clock) server token) ∧
    ∃ fired : List Str, fired.Nodup ∧
      (∀ token, token ∈ fired ↔ HasTimer (Due server.clock) server token) ∧
      next.manager = (withdrawn host)^[fired.length] server.manager := by
  obtain ⟨ended, dropped, fired, effect, distinct, isExpired, isQuit, isDue⟩ := effect_of_round ran
  refine ⟨effect.clock, fun token details => ?_, fun token => ?_, fun token => ?_,
    fired, distinct, isDue, effect.manager⟩
  · have ending : (∃ session_token, Expired server session_token ∧ Ends session_token token) ↔
        ∃ session_token ∈ ended, Ends session_token token :=
      exists_congr fun session_token => and_congr_left fun _ => (isExpired session_token).symm
    rw [effect.leases, ending]
    split
    · next ends => exact iff_of_false (by simp) fun both => both.2 ends
    · next apart => exact (and_iff_left apart).symm
  · rw [effect.timers]
    refine if_congr ?_ rfl rfl
    rw [List.mem_append, isQuit, isDue]
  · have reading : (∃ session_token, Expired server session_token ∧
          readToken session_token = some token) ↔
        ∃ session_token ∈ ended, readToken session_token = some token :=
      exists_congr fun session_token => and_congr_left fun _ => (isExpired session_token).symm
    rw [effect.active, isDue, reading]

end Round

section Silence

/-- What is known of the times in the tables, and of the active session, after any calls: the
requests and the timers are of the past, and the active session has a lease, unless no header is
read as its token. -/
structure Dated (clock : TimePoint) (sessions : SessionManager) : Prop where
  timeout : sessions.sessionTimeoutSec = 360
  leases : ∀ token details, sessions.leasedSessionTokens.find token = some details →
    details.LastRequestAt ≤ clock
  timers : ∀ token details, sessions.sessionTokenTimers.find token = some details →
    details.StartAt ≤ clock ∧ details.Timeout = confirmationTimeoutSec
  active : ∀ token, sessions.activeSessionToken = some token →
    sessions.Leased token ∨ ¬ MakesHeader token

namespace Dated

variable {clock : TimePoint} {sessions : SessionManager} {session_token : Str}

theorem register (dated : Dated clock sessions) (body : Str) :
    Dated clock { sessions with
      leasedSessionTokens := sessions.leasedSessionTokens.insert body ⟨clock, clock⟩ } where
  timeout := dated.timeout
  leases := fun token details found => by
    have known := (SortedMap.find_insert ..).symm.trans found
    split at known
    · cases known
      exact Int.le_refl _
    · exact dated.leases token details known
  timers := dated.timers
  active := fun token active => by
    refine (dated.active token active).imp_left fun leased => ?_
    unfold Leased
    rw [SortedMap.find_insert]
    split
    · rfl
    · exact leased

theorem touch (dated : Dated clock sessions) (session_token : Str) :
    Dated clock (sessions.touchSession clock session_token) where
  timeout := (touchSession_timeout ..).trans dated.timeout
  leases := fun token details found => by
    by_cases same : token = session_token
    · rw [same, touchSession_find_self] at found
      obtain ⟨_, _, rfl⟩ := Option.map_eq_some_iff.mp found
      exact Int.le_refl _
    · rw [touchSession_find clock same] at found
      exact dated.leases token details found
  timers := fun token details found => by
    rw [touchSession_timers] at found
    exact dated.timers token details found
  active := fun token active => by
    rw [touchSession_active] at active
    exact (dated.active token active).imp_left (touchSession_leased ..).mpr

theorem without (dated : Dated clock sessions) (session_token : Str) :
    Dated clock (sessions.withoutSession session_token) where
  timeout := dated.timeout
  leases := fun token details found => by
    have still := (SortedMap.find_erase ..).symm.trans found
    split at still
    · cases still
    · exact dated.leases token details still
  timers := dated.timers
  active := fun token active => by
    obtain ⟨differs, was⟩ := withoutSession_active.mp active
    exact (dated.active token was).imp_left fun leased => withoutSession_leased.mpr ⟨differs, leased⟩

theorem activate (dated : Dated clock sessions) (leased : sessions.Leased session_token) :
    Dated clock (activated clock session_token sessions) where
  timeout := (dated.touch session_token).timeout
  leases := (dated.touch session_token).leases
  timers := (dated.touch session_token).timers
  active := fun token active => by
    cases active
    exact Or.inl ((activated_leased ..).mpr leased)

theorem quit (dated : Dated clock sessions) (session_token : Str) :
    Dated clock (quitSession session_token sessions) where
  timeout := by
    rw [quitSession_eq]
    exact dated.timeout
  leases := by
    rw [quitSession_leased]
    exact dated.leases
  timers := fun token details found => by
    rw [quitSession_find] at found
    split at found
    · obtain ⟨was, known, rfl⟩ := Option.map_eq_some_iff.mp found
      exact dated.timers token was known
    · exact dated.timers token details found
  active := by
    rw [quitSession_eq]
    exact dated.active

theorem arm (dated : Dated clock sessions) (session_token : Str) :
    Dated clock (armSession session_token (confirmationTimer clock) sessions) where
  timeout := (armSession_timeout ..).trans dated.timeout
  leases := by
    rw [armSession_leases]
    exact dated.leases
  timers := fun token details found => by
    rw [armSession_find] at found
    split at found
    · cases found
      exact ⟨Int.le_refl _, rfl⟩
    · exact dated.timers token details found
  active := fun token active => by
    rw [armSession_active] at active
    unfold Leased
    rw [armSession_leases]
    exact dated.active token active

theorem erase (dated : Dated clock sessions) (session_token : Str) :
    Dated clock { sessions with
      sessionTokenTimers := sessions.sessionTokenTimers.erase session_token } where
  timeout := dated.timeout
  leases := dated.leases
  timers := fun token details found => dated.timers token details (find_of_erased found)
  active := dated.active

theorem expire (dated : Dated clock sessions) (session_token : Str) :
    Dated clock (expiredSession clock session_token sessions) where
  timeout := (expiredSession_timeout ..).trans dated.timeout
  leases := fun token details found => by
    have still := (expiredSession_find ..).symm.trans found
    split at still
    · cases still
    · exact dated.leases token details still
  timers := by
    rw [expiredSession_timers]
    exact dated.timers
  active := fun token active => by
    obtain ⟨was, notEnded⟩ := (expiredSession_active_iff ..).mp active
    by_cases plain : MakesHeader token
    · have leased := (dated.active token was).resolve_right fun noHeader => noHeader plain
      refine Or.inl (expiredSession_leased.mpr ⟨fun ends => notEnded ⟨leased, ?_⟩, leased⟩)
      rcases ends with rfl | read
      · exact plain
      · exact read
    · exact Or.inr plain

theorem free (dated : Dated clock sessions) (session_token : Str) :
    Dated clock (sessions.RemoveActiveSessionToken session_token) where
  timeout := (RemoveActiveSessionToken_timeout ..).trans dated.timeout
  leases := by
    rw [RemoveActiveSessionToken_leases]
    exact dated.leases
  timers := by
    rw [RemoveActiveSessionToken_timers]
    exact dated.timers
  active := fun token active => by
    unfold Leased
    rw [RemoveActiveSessionToken_leases]
    exact dated.active token (RemoveActiveSessionToken_active active).2

theorem fired (dated : Dated clock sessions) (session_token : Str) :
    Dated clock (firedSessions session_token sessions) := by
  have freed : Dated clock (sessions.RemoveActiveSessionToken session_token) :=
    dated.free session_token
  have erased := freed.erase session_token
  rw [RemoveActiveSessionToken_timers] at erased
  exact erased

theorem later (dated : Dated clock sessions) (duration : Nat) :
    Dated (clock + duration) sessions where
  timeout := dated.timeout
  leases := fun token details found => by
    have past := dated.leases token details found
    exact Int.le_trans past (Int.le_add_of_nonneg_right (Int.natCast_nonneg duration))
  timers := fun token details found => by
    obtain ⟨past, sameTimeout⟩ := dated.timers token details found
    exact ⟨Int.le_trans past (Int.le_add_of_nonneg_right (Int.natCast_nonneg duration)),
      sameTimeout⟩
  active := dated.active

end Dated

variable {host : Host} {first before after next : Server} {call : Call} {duration : Nat}

theorem dated_of_outcome (dated : Dated before.clock before.sessions)
    (outcome : Outcome host before call after) : Dated after.clock after.sessions := by
  cases outcome with
  | conflict | refused | read => exact dated
  | @registered req free => exact dated.register req.body
  | @removed req token requests => exact (dated.touch token).without token
  | @noted req token requests taken => exact dated.touch token
  | @updated req token requests free result manager ran =>
      exact ((dated.activate requests.leased).quit token).arm token
  | @updateRaised req token requests free reason manager halted =>
      exact (dated.activate requests.leased).quit token
  | @concluded req endpoint token files method concluding requests active => exact dated.quit token
  | @expired token expired => exact dated.expire token
  | @dropped token quit => exact dated.erase token
  | @fired token due => exact dated.fired token
  | @waited duration => exact dated.later duration

theorem dated_of_run (started : Started host first)
    (run : Relation.ReflTransGen (fun before after => ∃ call, Step host before call after)
      first before) : Dated before.clock before.sessions := by
  induction run with
  | refl =>
      rw [started.sessions]
      exact ⟨rfl, nofun, nofun, nofun⟩
  | tail _ step ih =>
      obtain ⟨call, step⟩ := step
      exact dated_of_outcome ih (outcome_of_step step)

theorem lt_wholeSeconds {seconds time clock : Int} (positive : 0 ≤ seconds) (past : time ≤ clock)
    (long : (seconds + 1) * 1000000000 ≤ duration) :
    seconds < wholeSeconds (clock + duration - time) := by
  unfold wholeSeconds
  rw [Int.tdiv_eq_ediv_of_nonneg (by omega)]
  omega

/-- A timer that was not quit. -/
def Live (details : TimerThreadDetails) : Bool := !details.QuitFlag

/-- After any calls and at least 361 seconds without one, a round that returns leaves no lease and
no timer, and has withdrawn the candidate once for each timer that was not quit. The slot of the
active session is free, but for a token that no header is read as. -/
theorem drained_of_silence (started : Started host first)
    (run : Relation.ReflTransGen (fun before after => ∃ call, Step host before call after)
      first before)
    (long : 361000000000 ≤ duration)
    (ran : checkExpiration.run (does host) { before with clock := before.clock + duration } =
      .ok PUnit.unit next) :
    (∀ token, next.sessions.leasedSessionTokens.find token = none) ∧
    (∀ token, next.sessions.sessionTokenTimers.find token = none) ∧
    (∀ token, next.sessions.activeSessionToken = some token → ¬ MakesHeader token) ∧
    ∃ fired : List Str, fired.Nodup ∧ (∀ token, token ∈ fired ↔ HasTimer Live before token) ∧
      next.manager = (withdrawn host)^[fired.length] before.manager := by
  have dated : Dated before.clock before.sessions := dated_of_run started run
  have isExpired : ∀ token, before.sessions.Leased token →
      Expired { before with clock := before.clock + duration } token := by
    intro token leased
    obtain ⟨details, found⟩ := leased_iff.mp leased
    refine ⟨details, found, ?_⟩
    dsimp only
    rw [dated.timeout]
    exact lt_wholeSeconds (by omega) (dated.leases token details found) (by omega)
  have isDue : ∀ details token, before.sessions.sessionTokenTimers.find token = some details →
      Due (before.clock + duration) details = Live details := by
    intro details token found
    obtain ⟨past, sameTimeout⟩ := dated.timers token details found
    have late : wholeSeconds (before.clock + duration - details.StartAt) > details.Timeout := by
      rw [sameTimeout]
      exact lt_wholeSeconds (by decide) past (by unfold confirmationTimeoutSec; omega)
    unfold Due Live
    rw [decide_eq_true late, Bool.and_true]
  have dueIffLive : ∀ token, HasTimer (Due (before.clock + duration))
      { before with clock := before.clock + duration } token ↔ HasTimer Live before token := by
    intro token
    refine exists_congr fun details => and_congr_right fun found => ?_
    rw [isDue details token found]
  obtain ⟨ended, dropped, fired, effect, distinct, expired, quit, due⟩ := effect_of_round ran
  refine ⟨fun token => ?_, fun token => ?_, fun token active plain => ?_,
    fired, distinct, fun token => (due token).trans (dueIffLive token), effect.manager⟩
  · rw [effect.leases]
    split
    · rfl
    · next notEnded =>
        refine Option.eq_none_iff_forall_ne_some.mpr fun details found => notEnded ?_
        exact ⟨token, (expired token).mpr (isExpired token (leased_iff.mpr ⟨details, found⟩)),
          .inl rfl⟩
  · rw [effect.timers]
    split
    · rfl
    · next notDropped =>
        refine Option.eq_none_iff_forall_ne_some.mpr fun details found => notDropped ?_
        rw [List.mem_append, quit, due, dueIffLive]
        cases flag : details.QuitFlag with
        | true => exact Or.inl ⟨details, found, flag⟩
        | false => exact Or.inr ⟨details, found, by rw [Live, flag]; rfl⟩
  · obtain ⟨was, notEnded, _⟩ := (effect.active token).mp active
    rcases dated.active token was with leased | noHeader
    · exact notEnded ⟨leased, token, (expired token).mpr (isExpired token leased), plain⟩
    · exact noHeader plain

end Silence

end FlexConfig.Server

namespace FlexConfig.Sample

open Procedure Server

/-- A session updates and is not heard of for 200 seconds. -/
theorem checkExpiration_exact_late :
    ∃ server next, checkExpiration.run (does oneLeafHost) server = .ok PUnit.unit next ∧
      server.manager.isCandidateConfigReady = true ∧ next.manager.isCandidateConfigReady = false ∧
      next.sessions.Leased "s".toList ∧
      ∃ fired : List Str, fired.Nodup ∧
        (∀ token, token ∈ fired ↔ HasTimer (SessionManager.Due server.clock) server token) ∧
        next.manager = (withdrawn oneLeafHost)^[fired.length] server.manager := by
  have runs : ∃ first ∈ Server.start oneLeafHost oneLeafConfig,
      ∃ leased ∈ serve oneLeafHost first (.request (leasing "s") .postSessionToken),
      ∃ updated ∈ serve oneLeafHost leased (.request (bearer "s" replaceText) .postRunningUpdate),
      ∃ server ∈ serve oneLeafHost updated (.wait 200000000000),
      ∃ next ∈ returned (checkExpiration.run (does oneLeafHost) server),
        server.manager.isCandidateConfigReady = true ∧
        next.2.manager.isCandidateConfigReady = false ∧ next.2.sessions.Leased "s".toList := by
    decide +kernel
  obtain ⟨_, _, _, _, _, _, server, _, ⟨_, next⟩, returns, ready, idle, leased⟩ := runs
  have ran := mem_returned.mp returns
  exact ⟨server, next, ran, ready, idle, leased, (checkExpiration_exact ran).2.2.2.2⟩

/-- A session updates and is not heard of again. -/
theorem drained_of_silence_updated :
    ∃ before next : Server, before.manager.isCandidateConfigReady = true ∧
      before.sessions.activeSessionToken = some "s".toList ∧
      next.manager.isCandidateConfigReady = false ∧
      (∀ token, next.sessions.leasedSessionTokens.find token = none) ∧
      (∀ token, next.sessions.sessionTokenTimers.find token = none) ∧
      (∀ token, next.sessions.activeSessionToken = some token → ¬ MakesHeader token) ∧
      ∃ fired : List Str, fired.Nodup ∧ (∀ token, token ∈ fired ↔ HasTimer Live before token) ∧
        next.manager = (withdrawn oneLeafHost)^[fired.length] before.manager := by
  have runs : ∃ first ∈ Server.start oneLeafHost oneLeafConfig,
      ∃ leased ∈ serve oneLeafHost first (.request (leasing "s") .postSessionToken),
      ∃ before ∈ serve oneLeafHost leased (.request (bearer "s" replaceText) .postRunningUpdate),
      ∃ next ∈ returned (checkExpiration.run (does oneLeafHost)
          { before with clock := before.clock + (361000000000 : Nat) }),
        before.manager.isCandidateConfigReady = true ∧
        before.sessions.activeSessionToken = some "s".toList ∧
        next.2.manager.isCandidateConfigReady = false := by
    decide +kernel
  obtain ⟨first, starts, leased, leases, before, updates, ⟨_, next⟩, returns, ready, active, idle⟩ :=
    runs
  have run : Relation.ReflTransGen
      (fun before after => ∃ call, Server.Step oneLeafHost before call after) first before :=
    .head ⟨_, step_of_serve leases⟩ (.single ⟨_, step_of_serve updates⟩)
  exact ⟨before, next, ready, active, idle,
    drained_of_silence (started_of_start starts) run (Nat.le_refl _) (mem_returned.mp returns)⟩

end FlexConfig.Sample
