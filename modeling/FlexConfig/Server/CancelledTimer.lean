import FlexConfig.Server.Threads

/-! # Cancelled timers

A timer that was cancelled is not to fire before it is set again. The table of timers does
as it should: an entry that is quit is never found due (`Disarmed.step`). But the thread
that checks for expiration leaves the table with a list of the timers to fire, and a timer
that is cancelled then is on the list.
-/

namespace FlexConfig.Server

open Procedure HTTP Concurrent SessionManager

variable {host : Host} {session_token : Str} {threads next : Threads} {event : Happening}

/-- The call that runs the callback of a timer. -/
def Fires (session_token : Str) : Op → Prop
  | .fireTimer other => other = session_token
  | _ => False

instance (op : Op) : Decidable (Fires session_token op) := by
  cases op <;> dsimp only [Fires] <;> infer_instance

/-- The answer of a sweep that found a timer due. -/
def Finds (session_token : Str) : (op : Op) → op.Answer → Prop
  | .sweepTimers _, timers => session_token ∈ timers.2
  | _, _ => False

/-- No thread is left with a timer to fire: it would first have to find it due. -/
def Spared (session_token : Str) (threads : Threads) : Prop :=
  ∀ worker, (threads.threads worker).Avoids (Fires session_token) (Finds session_token)

/-- A timer has no entry that is live. -/
def Disarmed (session_token : Str) (server : Server) : Prop :=
  ∀ details, server.sessions.sessionTokenTimers.find session_token = some details →
    details.QuitFlag = true

/-- The timer whose cancellation returns `true`. -/
def cancelledBy : Happening → Option Str
  | .answer _ (.quitTimer session_token) returned => cond returned (some session_token) none
  | _ => none

/-- The timer that is set, where this returns `true`. -/
def setBy : Happening → Option Str
  | .answer _ (.armTimer session_token _) returned => cond returned (some session_token) none
  | _ => none

/-- A cancellation of a timer returns `true`. -/
def Cancels (session_token : Str) (event : Happening) : Prop :=
  cancelledBy event = some session_token

/-- A timer is set, and this returns `true`. -/
def Sets (session_token : Str) (event : Happening) : Prop := setBy event = some session_token

instance : Decidable (Cancels session_token event) := inferInstanceAs (Decidable (_ = _))

instance : Decidable (Sets session_token event) := inferInstanceAs (Decidable (_ = _))

/-- The callback of a timer has run. -/
def Fired (session_token : Str) : Happening → Prop
  | .answer _ op _ => Fires session_token op
  | .raise _ op => Fires session_token op
  | .start _ _ => False

instance : Decidable (Fired session_token event) :=
  match event with
  | .start _ _ => isFalse id
  | .raise _ op => inferInstanceAs (Decidable (Fires session_token op))
  | .answer _ op _ => inferInstanceAs (Decidable (Fires session_token op))

/-- The next call of some thread runs the callback of a timer. -/
def AboutToFire (session_token : Str) (threads : Threads) : Prop :=
  ∃ worker, (threads.threads worker).Calls (Fires session_token)

section Routines

variable {α : Type}

/-- A routine that does not fire a timer unless it finds it due. -/
abbrev Harmless (session_token : Str) (task : Task α) : Prop :=
  task.Avoids (Fires session_token) (Finds session_token)

theorem harmless_cancel (req : Request) :
    Harmless session_token (CancelSessionTokenTimerOnce req) := by
  refine (Routine.avoids_perform id).bind fun (token : Option Str) => ?_
  exact Routine.Avoids.ite trivial (Routine.avoids_perform id)

theorem harmless_set (req : Request) (callback : SessionTokenTimerCB) (timeout_sec : Int) :
    Harmless session_token (SetSessionTokenTimerOnce req callback timeout_sec) := by
  refine (Routine.avoids_perform id).bind fun (token : Option Str) => ?_
  refine Routine.Avoids.ite trivial ?_
  exact (Routine.avoids_perform id).bind fun _ => Routine.avoids_perform id

theorem harmless_remove (req : Request) : Harmless session_token (RemoveSessionToken req) := by
  refine (Routine.avoids_perform id).bind fun (verdict : Verdict) => ?_
  exact Routine.Avoids.ite (Routine.avoids_perform id) trivial

theorem harmless_activate (req : Request) :
    Harmless session_token (SetActiveSessionToken req) := by
  refine (Routine.avoids_perform id).bind fun (verdict : Verdict) => ?_
  exact Routine.Avoids.ite (Routine.avoids_perform id) trivial

theorem harmless_respond (files : FileOutcome) (method : Method) (path : Str) (req : Request) :
    Harmless session_token (respond files method path req) :=
  (Routine.avoids_perform id).bind fun _ => trivial

theorem harmless_conclude (files : FileOutcome) (method : Method) (req : Request) :
    Harmless session_token (concludeCandidate files method req) := by
  refine (Routine.avoids_perform id).bind fun (verdict : Verdict) => ?_
  exact Routine.Avoids.ite ((harmless_cancel req).bind fun _ => harmless_respond ..) trivial

theorem harmless_handle (req : Request) (endpoint : Endpoint) :
    Harmless session_token (handle req endpoint) := by
  cases endpoint with
  | postSessionToken => exact (Routine.avoids_perform id).bind fun _ => trivial
  | deleteSessionToken => exact (harmless_remove req).bind fun _ => trivial
  | getRunning =>
      refine (Routine.avoids_perform id).bind fun (result : StatusCode × Str) => ?_
      exact Routine.Avoids.ite trivial trivial
  | postRunningUpdate =>
      refine (harmless_activate req).bind fun (verdict : Verdict) => ?_
      refine Routine.Avoids.ite ?_ trivial
      refine (harmless_cancel req).bind fun _ => (harmless_respond ..).bind fun _ => ?_
      exact (harmless_set ..).bind fun _ => trivial
  | postRunningDiff => exact harmless_respond ..
  | getCandidate =>
      refine (Routine.avoids_perform id).bind fun (verdict : Verdict) => ?_
      exact Routine.Avoids.ite (harmless_respond ..) trivial
  | putCandidate files => exact harmless_conclude ..
  | deleteCandidate => exact harmless_conclude ..

/-- The checking thread fires no timer but those it finds due. -/
theorem harmless_checkExpiration : Harmless session_token checkExpiration := by
  refine (Routine.avoids_perform id).bind fun now => (Routine.avoids_perform id).bind fun expired => ?_
  have ended : Harmless session_token (Routine.forEach expireSession expired) := by
    refine Routine.Avoids.forEach fun token _ => ?_
    refine Routine.Avoids.bind ?_ fun _ => Routine.avoids_perform id
    refine Routine.Avoids.forEach fun timeout_cb member => ?_
    rw [List.mem_singleton.mp member]
    exact (harmless_remove _).bind fun _ => trivial
  refine ended.bind fun _ => ⟨id, fun timers unfound => ?_⟩
  have erased : Harmless session_token
      (Routine.forEach (fun token => ask (.eraseTimer token)) timers.1) :=
    Routine.Avoids.forEach fun _ _ => Routine.avoids_perform id
  refine erased.bind fun _ => Routine.Avoids.forEach fun token member => ?_
  exact Routine.avoids_perform fun same => unfound (same ▸ member)

theorem harmless_of_mayStart {worker : Worker} {task : Task PUnit} (starts : MayStart worker task) :
    Harmless session_token task := by
  cases worker with
  | checking =>
      cases starts
      exact harmless_checkExpiration
  | connection number =>
      obtain ⟨req, endpoint, rfl⟩ := starts
      exact (harmless_handle req endpoint).bind fun _ => trivial
  | clock =>
      obtain ⟨duration, rfl⟩ := starts
      exact Routine.avoids_perform id

end Routines

section Table

variable {server : Server}

theorem disarmed_of_erased {timers : SortedMap Str TimerThreadDetails} {token : Str}
    (before : ∀ details, timers.find session_token = some details → details.QuitFlag = true)
    {details : TimerThreadDetails} (found : (timers.erase token).find session_token = some details) :
    details.QuitFlag = true := by
  rw [SortedMap.find_erase] at found
  split at found
  · cases found
  · exact before details found

/-- An operation leaves a timer disarmed, unless it sets it. -/
theorem Disarmed.after (before : Disarmed session_token server) (op : Op) :
    Disarmed session_token (after host op server) ∨
      ∃ details, op = .armTimer session_token details ∧
        server.sessions.sessionTokenTimers.find session_token = none := by
  have change := sessionChange_after host server op
  unfold Disarmed at before ⊢
  generalize (Server.after host op server).sessions = sessions at change ⊢
  cases change with
  | same | registered | activated | released | erased => exact Or.inl before
  | touched =>
      refine Or.inl fun details found => before details ?_
      rwa [touchSession_timers] at found
  | @armed token details free =>
      by_cases same : token = session_token
      · cases same
        exact Or.inr ⟨details, rfl, free⟩
      · refine Or.inl fun entry isEntry => before entry ?_
        rwa [SortedMap.find_insert, if_neg (Ne.symm same)] at isEntry
  | quit =>
      refine Or.inl fun entry isEntry => ?_
      rw [SortedMap.find_insert] at isEntry
      split at isEntry
      · cases isEntry
        rfl
      · exact before entry isEntry
  | dropped | fired => exact Or.inl fun details => disarmed_of_erased before

/-- A cancellation that returns `true` leaves the timer disarmed. -/
theorem disarmed_of_quit {next : Server}
    (returns : onSessions (quitTimer session_token) server = .ok true next) :
    Disarmed session_token next := by
  obtain ⟨sessions, quit, rfl⟩ := onSessions_eq_ok.mp returns
  cases found : server.sessions.sessionTokenTimers.find session_token with
  | none =>
      rw [quitTimer_of_none found] at quit
      cases quit
  | some details =>
      rw [quitTimer_of_some found] at quit
      cases quit
      intro entry isEntry
      change (SortedMap.insert _ _ _).find _ = _ at isEntry
      rw [SortedMap.find_insert, if_pos rfl] at isEntry
      cases isEntry
      rfl

/-- Setting a timer that has no entry returns `true`. -/
theorem returned_of_armTimer {details : TimerThreadDetails} {returned : Bool} {next : Server}
    (free : server.sessions.sessionTokenTimers.find session_token = none)
    (returns : onSessions (armTimer session_token details) server = .ok returned next) :
    returned = true := by
  obtain ⟨sessions, armed, _⟩ := onSessions_eq_ok.mp returns
  rw [armTimer_of_none free] at armed
  cases armed
  rfl

/-- A sweep finds no timer due that is disarmed. -/
theorem not_found_of_disarmed {now : TimePoint} {timers : List Str × List Str} {next : Server}
    (disarmed : Disarmed session_token server)
    (returns : onSessions (sweepTimers now) server = .ok timers next) :
    session_token ∉ timers.2 := by
  obtain ⟨sessions, swept, _⟩ := onSessions_eq_ok.mp returns
  rw [sweepTimers_eq] at swept
  cases swept
  intro member
  obtain ⟨details, found, due⟩ := SortedMap.mem_keysWhere.mp (List.mem_reverse.mp member)
  have quit := disarmed details found
  rw [Due, quit] at due
  cases due

end Table

/-- A step that does not set a timer leaves it disarmed and leaves no thread with it to fire. -/
theorem Disarmed.step (disarmed : Disarmed session_token threads.shared)
    (spared : Spared session_token threads) (step : ThreadStep host threads event next)
    (unset : ¬ Sets session_token event) :
    Disarmed session_token next.shared ∧ Spared session_token next := by
  have stillSpared : Spared session_token next := by
    refine Pool.Step.avoids (fun worker task => harmless_of_mayStart) spared step ?_
    intro worker op answer happened leads
    cases op with
    | sweepTimers now =>
        cases step with
        | start idle may => cases happened
        | raise calls halts goesOn => cases happened
        | answer calls returns =>
            cases happened
            exact not_found_of_disarmed disarmed returns leads
    | _ => exact leads
  refine ⟨?_, stillSpared⟩
  cases step with
  | start idle may => exact disarmed
  | @answer worker op rest answer shared calls returns =>
      have left : Server.after host op threads.shared = shared := by rw [Server.after, returns, final_ok]
      rw [Pool.resume_shared, ← left]
      rcases disarmed.after op with kept | ⟨details, rfl, free⟩
      · exact kept
      · have returned := returned_of_armTimer free returns
        cases returned
        exact (unset rfl).elim
  | @raise worker op rest reason shared calls halts goesOn =>
      have left : Server.after host op threads.shared = shared := by rw [Server.after, halts, final_error]
      rw [Pool.resume_shared, ← left]
      rcases disarmed.after op with kept | ⟨details, rfl, free⟩
      · exact kept
      · obtain ⟨sessions, armed, _⟩ := onSessions_eq_error.mp halts
        rw [armTimer_of_none free] at armed
        cases armed

section Runs

variable {first : Threads} {trail : List (Happening × Threads)}

/-- After a cancellation that returned `true` a timer does not fire before it is set. -/
def StaySilent (trail : List (Happening × Threads)) : Prop :=
  ∀ session_token early cancelled middle rest,
    trail = early ++ cancelled :: (middle ++ rest) → Cancels session_token cancelled.1 →
      (∀ later ∈ middle, ¬ Sets session_token later.1) →
        ∀ later ∈ middle, ¬ Fired session_token later.1

/-- Nor is its firing the next call of any thread, which could be one that ends the process. -/
def StayAway (trail : List (Happening × Threads)) : Prop :=
  ∀ session_token early cancelled middle rest,
    trail = early ++ cancelled :: (middle ++ rest) → Cancels session_token cancelled.1 →
      (∀ later ∈ middle, ¬ Sets session_token later.1) →
        ∀ later ∈ cancelled :: middle, ¬ AboutToFire session_token later.2

/-- A timer is cancelled while no thread is left with it to fire: not between the sweep that
found it due and its firing. -/
def CancelsInTime (before : Threads) (event : Happening) : Prop :=
  ∀ session_token, Cancels session_token event → Spared session_token before

theorem Spared.not_aboutToFire (spared : Spared session_token threads) :
    ¬ AboutToFire session_token threads := by
  intro ⟨worker, calls⟩
  exact (spared worker).not_calls calls

theorem aboutToFire_of_fired (step : ThreadStep host threads event next)
    (fired : Fired session_token event) : AboutToFire session_token threads := by
  cases step with
  | start idle may => exact fired.elim
  | @answer worker op rest answer shared calls returns =>
      refine ⟨worker, ?_⟩
      rw [calls]
      exact fired
  | @raise worker op rest reason shared calls halts goesOn =>
      refine ⟨worker, ?_⟩
      rw [calls]
      exact fired

/-- As long as it is not set, a disarmed timer that no thread is left with stays so. -/
theorem spared_along {middle rest : List (Happening × Threads)}
    (run : Along (ThreadStep host) first (middle ++ rest))
    (disarmed : Disarmed session_token first.shared) (spared : Spared session_token first)
    (unset : ∀ later ∈ middle, ¬ Sets session_token later.1) :
    ∀ later ∈ middle, ¬ Fired session_token later.1 ∧ Spared session_token later.2 := by
  induction middle generalizing first with
  | nil => exact fun _ member => by cases member
  | cons head others ih =>
      obtain ⟨step, run⟩ := run
      obtain ⟨stillDisarmed, stillSpared⟩ := disarmed.step spared step (unset head List.mem_cons_self)
      intro later member
      rcases List.mem_cons.mp member with rfl | member
      · exact ⟨fun fired => spared.not_aboutToFire (aboutToFire_of_fired step fired), stillSpared⟩
      · exact ih run stillDisarmed stillSpared
          (fun other isOther => unset other (List.mem_cons_of_mem _ isOther)) later member

/-- The step that cancels a timer disarms it, and leaves no thread with it if none had it. -/
theorem spared_of_cancels (step : ThreadStep host threads event next)
    (cancels : Cancels session_token event) (spared : Spared session_token threads) :
    Disarmed session_token next.shared ∧ Spared session_token next := by
  have stillSpared : Spared session_token next := by
    refine Pool.Step.avoids (fun worker task => harmless_of_mayStart) spared step ?_
    intro worker op answer happened leads
    cases happened
    cases op with
    | sweepTimers now => cases cancels
    | _ => exact leads
  refine ⟨?_, stillSpared⟩
  cases step with
  | start idle may => cases cancels
  | raise calls halts goesOn => cases cancels
  | @answer worker op rest answer shared calls returns =>
      cases op with
      | quitTimer token =>
          cases (answer : Bool) with
          | false => cases cancels
          | true =>
              cases cancels
              exact disarmed_of_quit returns
      | _ => cases cancels

theorem silent_of_cancelsInTime (run : Along (ThreadStep host) first trail)
    (guarded : Along (fun before event _ => CancelsInTime before event) first trail)
    {early middle rest : List (Happening × Threads)} {cancelled : Happening × Threads}
    (split : trail = early ++ cancelled :: (middle ++ rest))
    (cancels : Cancels session_token cancelled.1)
    (unset : ∀ later ∈ middle, ¬ Sets session_token later.1) :
    Spared session_token cancelled.2 ∧
      ∀ later ∈ middle, ¬ Fired session_token later.1 ∧ Spared session_token later.2 := by
  subst split
  induction early generalizing first with
  | nil =>
      obtain ⟨disarmed, spared⟩ := spared_of_cancels run.1 cancels (guarded.1 _ cancels)
      exact ⟨spared, spared_along run.2 disarmed spared unset⟩
  | cons head others ih => exact ih run.2 guarded.2

/-- In every run in which timers are cancelled in time, a cancelled timer does not fire before it
is set again. -/
theorem cancelled_timers_silent (run : Along (ThreadStep host) first trail)
    (guarded : Along (fun before event _ => CancelsInTime before event) first trail) :
    StaySilent trail ∧ StayAway trail := by
  refine ⟨?_, ?_⟩
  · intro session_token early cancelled middle rest split cancels unset later member
    exact ((silent_of_cancelsInTime run guarded split cancels unset).2 later member).1
  · intro session_token early cancelled middle rest split cancels unset later member
    obtain ⟨here, others⟩ := silent_of_cancelsInTime run guarded split cancels unset
    rcases List.mem_cons.mp member with rfl | member
    · exact here.not_aboutToFire
    · exact (others later member).2.not_aboutToFire

/-- The timers a sweep has found due, where the event is one. -/
def foundDue : Happening → List Str
  | .answer _ (.sweepTimers _) timers => timers.2
  | _ => []

/-- Timers are cancelled in time where none is found due. -/
theorem cancelsInTime_of_foundDue (run : Along (ThreadStep host) first trail)
    (spared : ∀ session_token, Spared session_token first)
    (none : ∀ later ∈ trail, foundDue later.1 = []) :
    Along (fun before event _ => CancelsInTime before event) first trail := by
  induction trail generalizing first with
  | nil => exact trivial
  | cons head rest ih =>
      refine ⟨fun session_token _ => spared session_token, ih run.2 (fun session_token => ?_) ?_⟩
      · refine Pool.Step.avoids (fun worker task => harmless_of_mayStart) (spared session_token)
          run.1 ?_
        intro worker op answer happened leads
        have found := none head List.mem_cons_self
        rw [happened] at found
        cases op with
        | sweepTimers now =>
            have member : session_token ∈ ([] : List Str) := found ▸ leads
            cases member
        | _ => exact leads
      · exact fun later member => none later (List.mem_cons_of_mem _ member)

end Runs

end FlexConfig.Server

namespace FlexConfig.Sample

open Concurrent Server

/-- A session is leased and updates the configuration. -/
def updated : List Turn :=
  [.request 0 (leasing "s") .postSessionToken, .go (.connection 0),
    .request 0 (bearer "s" replaceText) .postRunningUpdate] ++
      List.replicate 8 (.go (.connection 0))

/-- The session confirms the update, up to the cancellation of its timer. -/
def confirming : List Turn :=
  [.request 0 (bearer "s" []) (.putCandidate .success), .go (.connection 0), .go (.connection 0),
    .go (.connection 0)]

/-- The confirmation comes when the timer has been found due and is not yet fired. -/
def confirmedLate : List Turn :=
  updated ++ [.wait 181000000000, .go .clock, .check] ++ List.replicate 3 (.go .checking) ++
    confirming ++ [.go .checking]

theorem eq_of_getElem_pair {α : Type*} {list : List α} {position : Nat} {item next : α}
    (here : list[position]? = some item) (there : list[position + 1]? = some next) :
    list = list.take position ++ item :: ([next] ++ list.drop (position + 2)) := by
  obtain ⟨inside, rfl⟩ := List.getElem?_eq_some_iff.mp here
  obtain ⟨nextInside, rfl⟩ := List.getElem?_eq_some_iff.mp there
  rw [List.singleton_append, ← List.drop_eq_getElem_cons nextInside,
    ← List.drop_eq_getElem_cons inside, List.take_append_drop]

theorem fired_after_cancellation :
    ∃ server ∈ Server.start oneLeafHost oneLeafConfig,
      ∃ cancelled ∈ (playTurns oneLeafHost confirmedLate server.idle)[20]?,
        ∃ later ∈ (playTurns oneLeafHost confirmedLate server.idle)[20 + 1]?,
          Cancels "s".toList cancelled.1 ∧ ¬ Sets "s".toList later.1 ∧
            Fired "s".toList later.1 := by
  decide +kernel

/-- A timer that was cancelled fires: it had been found due. -/
theorem cancelled_timer_fires :
    ¬ ∀ (host : Host) (first : Threads) (trail : List (Happening × Threads)),
      ThreadsStarted host first → Along (ThreadStep host) first trail → StaySilent trail := by
  intro silent
  obtain ⟨server, starts, cancelled, here, later, there, cancels, unset, fired⟩ :=
    fired_after_cancellation
  have quiet := silent oneLeafHost server.idle _ (threadsStarted_idle (started_of_start starts))
    (along_playTurns confirmedLate server.idle)
  refine quiet "s".toList _ cancelled [later] _ (eq_of_getElem_pair here there) cancels ?_ later
    (List.mem_singleton_self later) fired
  intro other member
  rw [List.mem_singleton.mp member]
  exact unset

/-- The confirmation comes in time, and the thread that checks makes a round before and after. -/
def confirmedInTime : List Turn :=
  updated ++ [.check] ++ List.replicate 3 (.go .checking) ++ confirming ++
    [.go (.connection 0), .check] ++ List.replicate 4 (.go .checking)

/-- A timer that was cancelled in time stays silent. -/
theorem confirmed_timer_silent :
    ∃ server ∈ Server.start oneLeafHost oneLeafConfig,
      (∃ event ∈ playTurns oneLeafHost confirmedInTime server.idle,
        Cancels "s".toList event.1) ∧
      StaySilent (playTurns oneLeafHost confirmedInTime server.idle) ∧
        StayAway (playTurns oneLeafHost confirmedInTime server.idle) := by
  have checked : ∃ server ∈ Server.start oneLeafHost oneLeafConfig,
      (∃ event ∈ playTurns oneLeafHost confirmedInTime server.idle,
        Cancels "s".toList event.1) ∧
      ∀ event ∈ playTurns oneLeafHost confirmedInTime server.idle, foundDue event.1 = [] := by
    decide +kernel
  obtain ⟨server, starts, cancelled, none⟩ := checked
  have run : Along (ThreadStep oneLeafHost) server.idle _ := along_playTurns confirmedInTime server.idle
  exact ⟨server, starts, cancelled,
    cancelled_timers_silent run (cancelsInTime_of_foundDue run (fun _ _ => trivial) none)⟩

end FlexConfig.Sample
