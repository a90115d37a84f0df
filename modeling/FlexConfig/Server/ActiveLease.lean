import FlexConfig.Server.Threads

/-! # The active session and its lease

The active session is to be a leased one: a session that has no lease can neither go on
nor make room for another. Activating a session and ending an expired one each act in one
critical section on what they have seen in another, and these two sections are the only
ones that can break the law (`activeLeased_after_iff`).
-/

namespace FlexConfig.Server

open Procedure HTTP Concurrent SessionManager

variable {host : Host} {server : Server}

/-- The active session, if there is one, is leased. -/
def ActiveLeased (server : Server) : Prop :=
  ∀ session_token, server.sessions.activeSessionToken = some session_token →
    server.sessions.Leased session_token

instance : Decidable (ActiveLeased server) :=
  inferInstanceAs (Decidable (∀ session_token ∈ server.sessions.activeSessionToken, _))

/-- The sections that act on what was seen before meet it unchanged: a session that becomes
active still has its lease, and an expired one that loses its lease is not active. -/
def ActsOnFresh (server : Server) : Op → Prop
  | .activateSessionToken req =>
    server.sessions.activeSessionToken = none →
      ∀ session_token, headerToken req = .ok session_token → server.sessions.Leased session_token
  | .eraseSessionToken session_token => server.sessions.activeSessionToken ≠ some session_token
  | _ => True

/-- Every operation keeps the active session leased exactly when it acts on what it has seen. -/
theorem activeLeased_after_iff (before : ActiveLeased server) (op : Op) :
    ActiveLeased (after host op server) ↔ ActsOnFresh server op := by
  have change := sessionChange_after host server op
  unfold ActiveLeased at before ⊢
  generalize (after host op server).sessions = sessions at change ⊢
  cases change with
  | same stays taken =>
      refine iff_of_true before ?_
      cases op with
      | activateSessionToken req =>
          exact fun nobody token cut => (taken req token rfl cut (Or.inl nobody)).elim
      | eraseSessionToken token => exact (stays token rfl).elim
      | _ => trivial
  | @registered req free =>
      refine iff_of_true (fun token isActive => ?_) trivial
      rw [leased_iff, SortedMap.find_insert]
      split
      · exact ⟨_, rfl⟩
      · exact leased_iff.mp (before token isActive)
  | touched =>
      refine iff_of_true (fun token isActive => ?_) trivial
      rw [touchSession_active] at isActive
      exact (touchSession_leased _ token).mpr (before token isActive)
  | @activated req token cut free =>
      constructor
      · intro all nobody other header
        cases cut.symm.trans header
        exact all token rfl
      · intro fresh other isActive
        cases isActive
        rcases free with nobody | itself
        · exact fresh nobody token cut
        · exact before token itself
  | released =>
      refine iff_of_true (fun token isActive => ?_) trivial
      obtain ⟨differs, wasActive⟩ := withoutSession_active.mp isActive
      exact withoutSession_leased.mpr ⟨differs, before token wasActive⟩
  | @erased token =>
      constructor
      · intro all isActive
        have leased := leased_iff.mp (all token isActive)
        rw [SortedMap.find_erase, if_pos rfl] at leased
        obtain ⟨_, impossible⟩ := leased
        cases impossible
      · intro differs other isActive
        have other_ne : other ≠ token := fun same => differs (same ▸ isActive)
        rw [leased_iff, SortedMap.find_erase, if_neg other_ne]
        exact leased_iff.mp (before other isActive)
  | armed | quit | dropped => exact iff_of_true before trivial
  | @fired expired =>
      refine iff_of_true (fun token isActive => ?_) trivial
      have wasActive := (RemoveActiveSessionToken_active isActive).2
      rw [leased_iff]
      change ∃ details,
        (server.sessions.RemoveActiveSessionToken expired).leasedSessionTokens.find token =
          some details
      rw [RemoveActiveSessionToken_leases]
      exact leased_iff.mp (before token wasActive)

/-- The operation of an event acts on what was seen before it. -/
def EventActsOnFresh {ι : Type} (server : Server) : Event ι Op Op.Answer → Prop
  | .start _ _ => True
  | .answer _ op _ => ActsOnFresh server op
  | .raise _ op => ActsOnFresh server op

/-- No session is active when the server starts. -/
theorem Started.activeLeased (started : Started host server) : ActiveLeased server := by
  intro session_token isActive
  rw [started.sessions] at isActive
  cases isActive

section Pool

variable {ι : Type} [DecidableEq ι] {may : ι → Task PUnit → Prop} {survives : ι → Halt → Prop}
  {pool next : Pool ι Op Op.Answer Server} {event : Event ι Op Op.Answer}

theorem activeLeased_step_iff (before : ActiveLeased pool.shared)
    (step : Pool.Step may (does host) survives pool event next) :
    ActiveLeased next.shared ↔ EventActsOnFresh pool.shared event := by
  cases step with
  | start idle may => exact iff_of_true before trivial
  | @answer thread op rest answer shared calls returns =>
      have left : after host op pool.shared = shared := by rw [after, returns, final_ok]
      rw [Pool.resume_shared, ← left]
      exact activeLeased_after_iff before op
  | @raise thread op rest reason shared calls halts goesOn =>
      have left : after host op pool.shared = shared := by rw [after, halts, final_error]
      rw [Pool.resume_shared, ← left]
      exact activeLeased_after_iff before op

/-- Whatever routines the threads run, the active session is leased in every state of a run
exactly when every operation of the run acts on what it has seen. -/
theorem active_leased_along_iff {first : Pool ι Op Op.Answer Server}
    {trail : List (Event ι Op Op.Answer × Pool ι Op Op.Answer Server)}
    (started : Started host first.shared)
    (run : Along (Pool.Step may (does host) survives) first trail) :
    Along (fun _ _ after => ActiveLeased after.shared) first trail ↔
      Along (fun before event _ => EventActsOnFresh before.shared event) first trail := by
  refine along_iff_of_exact (fun pool => ActiveLeased pool.shared) ?_ ?_ started.activeLeased run
  · intro before event after
    exact activeLeased_step_iff
  · intro before event after _ _ leased
    exact leased

end Pool

end FlexConfig.Server

namespace FlexConfig.Sample

open Concurrent Server

/-- A session is deleted while an update of it stands between the check of its token and its
activation. -/
def deletedWhileActivated : List Turn :=
  [.request 0 (leasing "s") .postSessionToken, .go (.connection 0),
    .request 0 (bearer "s" replaceText) .postRunningUpdate, .go (.connection 0),
    .request 1 (bearer "s" []) .deleteSessionToken, .go (.connection 1), .go (.connection 1),
    .go (.connection 0)]

theorem deleted_stays_active :
    ∃ server ∈ Server.start oneLeafHost oneLeafConfig,
      ¬ Along (fun _ _ after => ActiveLeased after.shared) server.idle
        (playTurns oneLeafHost deletedWhileActivated server.idle) := by
  decide +kernel

/-- The session that was deleted becomes the active one. -/
theorem dead_session_active :
    ¬ ∀ (host : Host) (first : Threads) (trail : List (Happening × Threads)),
      ThreadsStarted host first → Along (ThreadStep host) first trail →
        Along (fun _ _ after => ActiveLeased after.shared) first trail := by
  intro leased
  obtain ⟨server, starts, dead⟩ := deleted_stays_active
  exact dead (leased oneLeafHost server.idle _ (threadsStarted_idle (started_of_start starts))
    (along_playTurns deletedWhileActivated server.idle))

/-- One of the operations of that run does not act on what it has seen. -/
theorem dead_session_active_seen :
    ∃ server ∈ Server.start oneLeafHost oneLeafConfig,
      ¬ Along (fun before event _ => EventActsOnFresh before.shared event) server.idle
        (playTurns oneLeafHost deletedWhileActivated server.idle) := by
  obtain ⟨server, starts, dead⟩ := deleted_stays_active
  refine ⟨server, starts, fun fresh => dead ?_⟩
  exact (active_leased_along_iff (started_of_start starts)
    (along_playTurns deletedWhileActivated server.idle)).mpr fresh

end FlexConfig.Sample
