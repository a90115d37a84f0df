import FlexConfig.Server.Access

/-! # The thread that checks for expiration

The checking thread reads the table of timers, and removes what it has read in sections of their
own, while connections set and cancel timers in between. It dereferences an entry it looks up
without asking whether there is one. Nobody else removes timers, so that the entry is there: what
ends the thread is nothing but a withdrawal of the pending candidate that halts.
-/

namespace FlexConfig.Server

open Procedure HTTP Concurrent SessionManager

/-- A request whose check does not raise. -/
def Whole (req : Request) : Prop := req.authorization = none ∨ ∃ token, headerToken req = .ok token

theorem whole_removalRequest (session_token : Str) : Whole (removalRequest session_token) := by
  cases read : readToken session_token with
  | none =>
      refine .inl ?_
      rw [removalRequest, headerValue_bearer, read]
      rfl
  | some token => exact .inr ⟨token, headerToken_removalRequest read⟩

/-- A thread, and the timers it has read and not removed yet. -/
structure Duty where
  worker : Worker
  promised : List Str

def Duty.next (duty : Duty) : (op : Op) → op.Answer → Duty
  | .sweepTimers _, timers => { duty with promised := timers.1 ++ timers.2 }
  | .eraseTimer session_token, _ | .fireTimer session_token, _ =>
    { duty with promised := duty.promised.filter (· ≠ session_token) }
  | _, _ => duty

/-- What a thread may call: timers are removed by the checking thread, which has read them, and
which asks for nothing that raises. -/
def Duty.allows (duty : Duty) : Op → Prop
  | .fireTimer session_token | .eraseTimer session_token =>
    duty.worker = .checking ∧ session_token ∈ duty.promised
  | .checkSessionToken req => duty.worker = .checking → Whole req
  | .releaseSessionToken req => duty.worker = .checking → ∃ token, headerToken req = .ok token
  | .activateSessionToken _ | .checkActiveSessionToken _ | .getSessionToken _
  | .processRequest _ _ _ _ => duty.worker ≠ .checking
  | _ => True

/-- A table is read without repetition, and a header that is accepted has a token. -/
def Admissible : (op : Op) → op.Answer → Prop
  | .sweepTimers _, timers => (timers.1 ++ timers.2).Nodup
  | .checkSessionToken req, verdict => verdict.accepted → ∃ token, headerToken req = .ok token
  | _, _ => True

/-- What is read is removed once. -/
def removal : Discipline Op Op.Answer Duty where
  record := Duty.next
  allowed := Duty.allows
  possible := Admissible

/-- A thread that begins has read no timers. -/
def unread (worker : Worker) : Duty := ⟨worker, []⟩

theorem Duty.next_worker (duty : Duty) (op : Op) (answer : op.Answer) :
    (duty.next op answer).worker = duty.worker := by
  cases op <;> rfl

section Obey

variable {duty : Duty}

/-- A handler removes no timer, which its passage through the checks shows. -/
theorem obeys_removal_of_admission {task : Task PUnit} {number : Nat}
    (obeys : task.Obeys admission (begins (.connection number)) fun _ _ => True) :
    task.Obeys removal (unread (.connection number)) fun _ _ => True := by
  have begun : (begins (.connection number)).worker = (unread (.connection number)).worker ∧
      (unread (.connection number)).worker ≠ .checking := ⟨rfl, nofun⟩
  refine (obeys.transfer
    (fun passage duty => passage.worker = duty.worker ∧ duty.worker ≠ .checking)
    ?_ (fun _ => trivial) ?_ begun).imp fun _ _ _ => trivial
  · intro passage duty op related allowed
    have other : passage.worker ≠ .checking := related.1 ▸ related.2
    cases op with
    | fireTimer | eraseTimer => exact absurd allowed other
    | checkSessionToken | releaseSessionToken =>
        exact fun checking => absurd checking related.2
    | activateSessionToken | checkActiveSessionToken | getSessionToken | processRequest =>
        exact related.2
    | now | registerSessionToken | expiredSessions | eraseSessionToken | armTimer | quitTimer
    | sweepTimers | passTime => exact trivial
  · intro passage duty op answer related
    change passage.worker = (duty.next op answer).worker ∧ (duty.next op answer).worker ≠ .checking
    rw [duty.next_worker]
    exact related

/-- The timers a loop still has to remove, among those that are promised. -/
structure Outstanding (duty : Duty) (rest : List Str) : Prop where
  checks : duty.worker = .checking
  once : rest.Nodup
  promised : ∀ session_token ∈ rest, session_token ∈ duty.promised

/-- The removal of the first outstanding timer leaves the others outstanding. -/
theorem Outstanding.tail {session_token : Str} {rest : List Str} {duty next : Duty}
    (outstanding : Outstanding duty (session_token :: rest)) (worker : next.worker = duty.worker)
    (removed : next.promised = duty.promised.filter (· ≠ session_token)) :
    Outstanding next rest where
  checks := worker.trans outstanding.checks
  once := (List.nodup_cons.mp outstanding.once).2
  promised := by
    intro other member
    have differs : other ≠ session_token := fun same =>
      (List.nodup_cons.mp outstanding.once).1 (same ▸ member)
    rw [removed, List.mem_filter]
    exact ⟨outstanding.promised other (List.mem_cons_of_mem _ member), decide_eq_true differs⟩

/-- The end of a lease asks for nothing that raises. -/
theorem obeys_expireSession (session_token : Str) (checks : duty.worker = .checking) :
    (expireSession session_token).Obeys removal duty fun last _ => last.worker = .checking := by
  refine Routine.Obeys.bind (Routine.Obeys.bind (Routine.Obeys.bind (Routine.Obeys.bind ?_)))
  refine Routine.obeys_perform (fun _ => whole_removalRequest session_token) fun verdict cut => ?_
  by_cases accepted : verdict.accepted
  · rw [if_pos accepted]
    exact Routine.obeys_perform (fun _ => cut accepted) fun _ _ =>
      Routine.obeys_perform trivial fun _ _ => checks
  · rw [if_neg accepted]
    exact Routine.obeys_perform trivial fun _ _ => checks

/-- A round removes the timers it has read, each once. -/
theorem obeys_round (checks : duty.worker = .checking) :
    checkExpiration.Obeys removal duty fun _ _ => True := by
  refine Routine.Obeys.bind (Routine.obeys_perform trivial fun now _ => ?_)
  refine Routine.Obeys.bind (Routine.obeys_perform trivial fun expired _ => ?_)
  refine Routine.Obeys.bind ((Routine.Obeys.forEach
    (fun (_ : List Str) (last : Duty) => last.worker = .checking)
    (fun checks => obeys_expireSession _ checks) checks).imp fun _ _ checks => ?_)
  refine Routine.Obeys.bind (Routine.obeys_perform trivial fun timers once => ?_)
  have outstanding : Outstanding (Duty.next _ (.sweepTimers now) timers) (timers.1 ++ timers.2) :=
    ⟨checks, once, fun _ member => member⟩
  refine Routine.Obeys.bind ((Routine.Obeys.forEach
    (fun (rest : List Str) (last : Duty) => Outstanding last (rest ++ timers.2)) ?_
    outstanding).imp fun _ _ outstanding => ?_)
  · intro session_token rest before outstanding
    exact Routine.obeys_perform ⟨outstanding.checks, outstanding.promised _ List.mem_cons_self⟩
      fun _ _ => outstanding.tail rfl rfl
  · refine (Routine.Obeys.forEach (fun (rest : List Str) (last : Duty) => Outstanding last rest)
      ?_ outstanding).imp fun _ _ _ => trivial
    intro session_token rest before outstanding
    exact Routine.obeys_perform ⟨outstanding.checks, outstanding.promised _ List.mem_cons_self⟩
      fun _ _ => outstanding.tail rfl rfl

theorem obeys_removal_of_mayStart {worker : Worker} {task : Task PUnit}
    (may : MayStart worker task) : task.Obeys removal (unread worker) fun _ _ => True := by
  cases worker with
  | checking =>
      cases may
      exact obeys_round rfl
  | connection number => exact obeys_removal_of_admission (obeys_of_mayStart may)
  | clock =>
      obtain ⟨duration, rfl⟩ := may
      exact Routine.obeys_perform trivial fun _ _ => trivial

end Obey

section Steps

variable {host : Host} {server : Server} {op : Op}

theorem admissible_of_does {answer : op.Answer} {next : Server}
    (returns : does host op server = .ok answer next) : Admissible op answer := by
  cases op with
  | sweepTimers now =>
      obtain ⟨sessions, ran, _⟩ := onSessions_eq_ok.mp returns
      rw [sweepTimers_eq] at ran
      cases ran
      refine List.nodup_append'.mpr ⟨List.nodup_reverse.mpr (SortedMap.keysWhere_nodup ..),
        List.nodup_reverse.mpr (SortedMap.keysWhere_nodup ..), ?_⟩
      -- a timer that is quit is not due
      intro token stopped expired
      obtain ⟨details, found, quit⟩ := SortedMap.mem_keysWhere.mp (List.mem_reverse.mp stopped)
      obtain ⟨other, same, due⟩ := SortedMap.mem_keysWhere.mp (List.mem_reverse.mp expired)
      cases found.symm.trans same
      rw [Due, quit] at due
      cases due
  | checkSessionToken req =>
      intro accepted
      obtain ⟨sessions, ran, _⟩ := onSessions_eq_ok.mp returns
      rcases requestedSession_cases req server.sessions with
        ⟨token, requested⟩ | ⟨status, refused⟩ | raised
      · exact ⟨token, Requests.cut requested⟩
      · rw [CheckSessionToken_of_refused refused] at ran
        cases ran
        cases accepted
      · rw [CheckSessionToken_of_raised raised] at ran
        cases ran
  | now | registerSessionToken | activateSessionToken | checkActiveSessionToken
  | releaseSessionToken | getSessionToken | expiredSessions | eraseSessionToken | armTimer
  | quitTimer | eraseTimer | fireTimer | processRequest | passTime => exact trivial

/-- A token has a timer. -/
def Timed (server : Server) (session_token : Str) : Prop :=
  ∃ details, server.sessions.sessionTokenTimers.find session_token = some details

/-- A timer stays until it is removed or fires. -/
theorem timed_after {session_token : Str} (timed : Timed server session_token)
    (erased : op ≠ .eraseTimer session_token) (fired : op ≠ .fireTimer session_token) :
    Timed (Server.after host op server) session_token := by
  obtain ⟨details, found⟩ := timed
  unfold Timed
  have change := sessionChange_after host server op
  generalize (Server.after host op server).sessions = sessions at change
  cases change with
  | same | registered | activated | released | erased => exact ⟨details, found⟩
  | touched =>
      rw [touchSession_timers]
      exact ⟨details, found⟩
  | @armed token given =>
      by_cases same : session_token = token
      · exact ⟨given, by rw [SortedMap.find_insert, if_pos same]⟩
      · exact ⟨details, by rw [SortedMap.find_insert, if_neg same, found]⟩
  | @quit token given =>
      by_cases same : session_token = token
      · exact ⟨{ given with QuitFlag := true }, by rw [SortedMap.find_insert, if_pos same]⟩
      · exact ⟨details, by rw [SortedMap.find_insert, if_neg same, found]⟩
  | @dropped token =>
      have differs : session_token ≠ token := fun same => erased (same ▸ rfl)
      exact ⟨details, by rw [SortedMap.find_erase, if_neg differs, found]⟩
  | @fired token =>
      have differs : session_token ≠ token := fun same => fired (same ▸ rfl)
      refine ⟨details, ?_⟩
      change (server.sessions.sessionTokenTimers.erase token).find session_token = some details
      rw [SortedMap.find_erase, if_neg differs, found]

theorem timed_of_sweep {now : TimePoint} {timers : List Str × List Str} {next : Server}
    {session_token : Str} (returns : does host (.sweepTimers now) server = .ok timers next)
    (member : session_token ∈ timers.1 ++ timers.2) : Timed next session_token := by
  obtain ⟨sessions, ran, rfl⟩ := onSessions_eq_ok.mp returns
  rw [sweepTimers_eq] at ran
  cases ran
  rcases List.mem_append.mp member with stopped | expired
  · obtain ⟨details, found, _⟩ := SortedMap.mem_keysWhere.mp (List.mem_reverse.mp stopped)
    exact ⟨details, found⟩
  · obtain ⟨details, found, _⟩ := SortedMap.mem_keysWhere.mp (List.mem_reverse.mp expired)
    exact ⟨details, found⟩

/-- What is still to be removed after an answer is there. -/
theorem timed_of_next {duty : Duty} {answer : op.Answer} {next : Server} {session_token : Str}
    (timed : ∀ token ∈ duty.promised, Timed server token)
    (returns : does host op server = .ok answer next)
    (member : session_token ∈ (duty.next op answer).promised) : Timed next session_token := by
  have left : next = Server.after host op server := by
    rw [Server.after, returns]
    rfl
  cases op with
  | sweepTimers now => exact timed_of_sweep returns member
  | eraseTimer token =>
      obtain ⟨promised, differs⟩ := List.mem_filter.mp member
      rw [left]
      refine timed_after (timed _ promised) ?_ Op.noConfusion
      rintro ⟨⟩
      exact of_decide_eq_true differs rfl
  | fireTimer token =>
      obtain ⟨promised, differs⟩ := List.mem_filter.mp member
      rw [left]
      refine timed_after (timed _ promised) Op.noConfusion ?_
      rintro ⟨⟩
      exact of_decide_eq_true differs rfl
  | now | registerSessionToken | checkSessionToken | activateSessionToken | checkActiveSessionToken
  | releaseSessionToken | getSessionToken | expiredSessions | eraseSessionToken | armTimer
  | quitTimer | processRequest | passTime =>
      rw [left]
      exact timed_after (timed _ member) Op.noConfusion Op.noConfusion

/-- A withdrawal that halts is a cancellation of the pending candidate that does. -/
theorem cancel_of_withdrawal {reason : Halt} {manager next : Manager}
    (halted : processRequest host .success .DEL URIRequestPath.CANDIDATE [] manager =
      .error reason next) :
    manager.Pending ∧ reason ≠ .rejected ∧
      Manager.cancelCandidateConfig host.env manager = .error reason next := by
  have asked : Manager.cancelCandidateConfig host.env ∈ conclusion host .success .DEL := rfl
  rw [processRequest_conclusion asked] at halted
  have unanswered : ¬ ∃ answer last, answered (Manager.cancelCandidateConfig host.env) manager =
      .ok answer last := by
    rintro ⟨answer, last, ran⟩
    have handled : (onPath URIRequestPath.CANDIDATE fun _ _ => do
        let answer ← answered (Manager.cancelCandidateConfig host.env)
        return (.OK, assignedBool answer)) URIRequestPath.CANDIDATE [] [] manager =
          .ok (.OK, assignedBool answer) last := by
      rw [onPath_self, bind_of_ok ran]
      rfl
    rw [processCallbacks_of_ok handled nofun] at halted
    cases halted
  cases ran : Manager.cancelCandidateConfig host.env manager with
  | ok value last => exact absurd ⟨_, _, answered_of_ok ran⟩ unanswered
  | error cause last =>
      rcases answered_of_error ran with answer | raised
      · exact absurd ⟨_, _, answer⟩ unanswered
      · rw [processCallbacks_of_error (by rw [onPath_self, bind_of_error raised])] at halted
        cases halted
        refine ⟨?_, ?_, rfl⟩
        · by_contra idle
          have refused : Manager.cancelCandidateConfig host.env manager =
              .error .rejected manager := by
            unfold Manager.cancelCandidateConfig
            rw [get_bind, if_pos (by simpa [Manager.Pending] using idle)]
            rfl
          cases ran.symm.trans refused
          exact unanswered ⟨_, _, by rw [answered, refused]⟩
        · rintro rfl
          exact unanswered ⟨_, _, by rw [answered, ran]⟩

/-- What the checking thread may call halts in a cancellation only. -/
theorem halts_in_cancel {duty : Duty} {reason : Halt} {next : Server} (checks : duty.worker = .checking)
    (allowed : duty.allows op) (timed : ∀ token ∈ duty.promised, Timed server token)
    (halted : does host op server = .error reason next) :
    ∃ session_token, op = .fireTimer session_token ∧ Timed server session_token ∧
      server.manager.Pending ∧ reason ≠ .rejected ∧
      Manager.cancelCandidateConfig host.env server.manager = .error reason next.manager := by
  cases op with
  | fireTimer session_token =>
      have has := timed session_token allowed.2
      rcases fireTimer_cases host session_token server with
        ⟨_, _, _, _, _, fired⟩ | ⟨_, _, cause, manager, withdrawn, stopped⟩ | ⟨missing, _⟩
      · cases fired.symm.trans halted
      · cases stopped.symm.trans halted
        exact ⟨session_token, rfl, has, cancel_of_withdrawal withdrawn⟩
      · obtain ⟨details, found⟩ := has
        cases missing.symm.trans found
  | checkSessionToken req =>
      exfalso
      obtain ⟨sessions, ran, _⟩ := onSessions_eq_error.mp halted
      rcases requestedSession_cases req server.sessions with
        ⟨token, requested⟩ | ⟨status, refused⟩ | raised
      · rw [CheckSessionToken_of_requested requested] at ran
        cases ran
      · rw [CheckSessionToken_of_refused refused] at ran
        cases ran
      · rcases allowed checks with none | ⟨token, cut⟩
        · rw [requestedSession, none] at raised
          cases raised
        · rw [requestedSession] at raised
          split at raised
          · cases raised
          · next auth header =>
              rw [headerToken, header, Option.getD_some] at cut
              rw [cut] at raised
              by_cases leased : server.sessions.Leased token
              · cases (if_pos leased).symm.trans raised
              · cases (if_neg leased).symm.trans raised
  | releaseSessionToken req =>
      exfalso
      obtain ⟨sessions, ran, _⟩ := onSessions_eq_error.mp halted
      obtain ⟨token, cut⟩ := allowed checks
      rw [releaseSessionToken_of_token cut] at ran
      cases ran
  | activateSessionToken | checkActiveSessionToken | getSessionToken | processRequest =>
      exact absurd checks allowed
  | registerSessionToken req =>
      exfalso
      obtain ⟨sessions, ran, _⟩ := onSessions_eq_error.mp halted
      by_cases leased : server.sessions.Leased req.body
      · rw [RegisterSessionToken_of_leased leased] at ran
        cases ran
      · rw [RegisterSessionToken_of_free leased] at ran
        cases ran
  | armTimer session_token details =>
      exfalso
      obtain ⟨sessions, ran, _⟩ := onSessions_eq_error.mp halted
      cases found : server.sessions.sessionTokenTimers.find session_token with
      | none =>
          rw [armTimer_of_none found] at ran
          cases ran
      | some present =>
          rw [armTimer_of_some found] at ran
          cases ran
  | quitTimer session_token =>
      exfalso
      obtain ⟨sessions, ran, _⟩ := onSessions_eq_error.mp halted
      cases found : server.sessions.sessionTokenTimers.find session_token with
      | none =>
          rw [quitTimer_of_none found] at ran
          cases ran
      | some present =>
          rw [quitTimer_of_some found] at ran
          cases ran
  | now | expiredSessions | eraseSessionToken | sweepTimers | eraseTimer | passTime => cases halted

end Steps

section Runs

variable {host : Host}

/-- The threads with the timers each of them has read. -/
abbrev Reading := Threads × (Worker → Duty)

/-- Every thread obeys, and what the checking thread has read and not removed is there. -/
structure Attentive (reading : Reading) : Prop where
  obey : reading.1.Obey removal reading.2
  own : ∀ worker, (reading.2 worker).worker = worker
  timed : ∀ session_token ∈ (reading.2 .checking).promised, Timed reading.1.shared session_token

/-- A call of the checking thread that halts is the firing of a timer that is there, and the
cancellation of the candidate that is pending halts in it. -/
def Steady (host : Host) (threads : Threads) : Prop :=
  ∀ op next reason server, threads.threads .checking = .call op next →
    does host op threads.shared = .error reason server →
      ∃ session_token, op = .fireTimer session_token ∧ Timed threads.shared session_token ∧
        threads.shared.manager.Pending ∧ reason ≠ .rejected ∧
        Manager.cancelCandidateConfig host.env threads.shared.manager = .error reason server.manager

theorem steady_of_attentive {reading : Reading} (attentive : Attentive reading) :
    Steady host reading.1 := by
  intro op next reason server calls halted
  have obeys := attentive.obey .checking
  rw [calls] at obeys
  exact halts_in_cancel (attentive.own .checking) obeys.1 attentive.timed halted

/-- A timer that is removed in a step is removed by the checking thread, and noted by it. -/
theorem attentive_of_step {before after : Reading} {event : Happening}
    (attentive : Attentive before)
    (step : Watched (ThreadStep host)
      (fun notes _ event _ => event.observe removal unread notes) before event after) :
    Attentive after := by
  obtain ⟨next, notes⟩ := after
  obtain ⟨moves, records⟩ := step
  change ThreadStep host before.1 event next at moves
  change notes = event.observe removal unread before.2 at records
  subst records
  constructor
  · exact Pool.Step.obey (fun worker task may => obeys_removal_of_mayStart may)
      (fun _ _ _ _ returns => admissible_of_does returns) attentive.obey moves
  · intro worker
    change ((event.observe removal unread before.2) worker).worker = worker
    rcases Event.observe_cases removal unread event before.2 worker with
      same | anew | ⟨op, reply, _, records⟩
    · rw [same]
      exact attentive.own worker
    · rw [anew]
      rfl
    · rw [records]
      exact (Duty.next_worker ..).trans (attentive.own worker)
  · -- a thread other than the checking one is not allowed to remove a timer
    have stays : ∀ {worker op}, worker ≠ .checking → event.Calls worker op →
        ∀ token ∈ (before.2 .checking).promised,
          Timed (Server.after host op before.1.shared) token := by
      intro worker op other calls token promised
      have allowed := Pool.Step.allowed attentive.obey moves calls
      refine timed_after (attentive.timed token promised) ?_ ?_
      · rintro rfl
        exact other ((attentive.own worker).symm.trans allowed.1)
      · rintro rfl
        exact other ((attentive.own worker).symm.trans allowed.1)
    change ∀ token ∈ (event.observe removal unread before.2 .checking).promised, Timed next.shared token
    cases moves with
    | @start worker task idle may =>
        intro token promised
        by_cases same : worker = .checking
        · subst same
          have none : token ∈ (unread .checking).promised := by
            simpa only [Event.observe, Function.update_self] using promised
          cases none
        · rw [Event.observe, Function.update_of_ne (Ne.symm same)] at promised
          exact attentive.timed token promised
    | @answer worker op rest answer shared calls returns =>
        intro token promised
        by_cases same : worker = .checking
        · subst same
          rw [Event.observe, Function.update_self] at promised
          exact timed_of_next attentive.timed returns promised
        · rw [Event.observe, Function.update_of_ne (Ne.symm same)] at promised
          have kept := stays same (.inl ⟨answer, rfl⟩) token promised
          rw [Server.after, returns] at kept
          exact kept
    | @raise worker op rest reason shared calls halts goesOn =>
        intro token promised
        have same : worker ≠ .checking := by
          rintro rfl
          exact goesOn
        rw [Event.observe, Function.update_of_ne (Ne.symm same)] at promised
        have kept := stays same (.inr rfl) token promised
        rw [Server.after, halts] at kept
        exact kept

theorem attentive_of_started {threads : Threads} (started : ThreadsStarted host threads) :
    Attentive (threads, unread) where
  obey := fun worker => by
    rw [started.idle worker]
    exact trivial
  own := fun _ => rfl
  timed := nofun

/-- In every run of the threads, whatever their order, the checking thread never looks for a timer
that is gone, and none of its calls halts but in a cancellation of the pending candidate. -/
theorem steady_along {threads : Threads} {trail : List (Happening × Threads)}
    (started : ThreadsStarted host threads) (run : Along (ThreadStep host) threads trail) :
    Along (fun _ _ after => Steady host after) threads trail := by
  have watched : Along (Watched (ThreadStep host)
      (fun notes _ event _ => event.observe removal unread notes)) (threads, unread)
      (watch (fun notes _ event _ => event.observe removal unread notes) threads unread trail) :=
    along_watch run
  exact along_of_watch (along_of_invariant Attentive (fun attentive step _ =>
    have attentive := attentive_of_step attentive step
    ⟨attentive, steady_of_attentive attentive⟩) (attentive_of_started started) watched watched)

end Runs

end FlexConfig.Server

namespace FlexConfig.Sample

open HTTP Concurrent Server

/-- A session updates and waits too long; it confirms after the checking thread has found its timer
due, and before the timer fires. -/
def confirmedTooLate : List Turn :=
  [.request 0 (leasing "s") .postSessionToken, .go (.connection 0),
    .request 0 (bearer "s" replaceText) .postRunningUpdate] ++
    List.replicate 8 (.go (.connection 0)) ++
    [.wait 181000000000, .go .clock, .check, .go .checking, .go .checking, .go .checking,
      .request 0 (bearer "s" []) (.putCandidate .success)] ++
    List.replicate 4 (.go (.connection 0)) ++ [.go .checking]

/-- A timer has fired. -/
def fires : Happening → Bool
  | .answer .checking (.fireTimer _) _ => true
  | _ => false

/-- The late timer fires without a candidate, and the thread goes on. -/
theorem steady_along_late :
    ∃ server ∈ Server.start oneLeafHost oneLeafConfig,
      (∃ last ∈ (playTurns oneLeafHost confirmedTooLate server.idle).getLast?,
        fires last.1 = true ∧ last.2.shared.manager.runningJson = object [("a", text "new")]) ∧
      Along (fun _ _ after => Steady oneLeafHost after) server.idle
        (playTurns oneLeafHost confirmedTooLate server.idle) := by
  have fired : ∃ server ∈ Server.start oneLeafHost oneLeafConfig,
      ∃ last ∈ (playTurns oneLeafHost confirmedTooLate server.idle).getLast?,
        fires last.1 = true ∧
          last.2.shared.manager.runningJson = object [("a", text "new")] := by
    decide +kernel
  obtain ⟨server, starts, late⟩ := fired
  exact ⟨server, starts, late,
    steady_along (threadsStarted_idle (started_of_start starts))
      (along_playTurns confirmedTooLate server.idle)⟩

end FlexConfig.Sample
