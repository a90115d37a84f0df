import FlexConfig.Manager.Refusals
import FlexConfig.Server.Calls

/-! # What a client learns of an operation

The answer of an operation of the manager becomes a status in its callback, and the
handler sends what it is given. The callback of an update looks at the answer; those of an
apply and of a cancellation put it into the content and report success.
-/

namespace FlexConfig.Server

open Procedure HTTP SessionManager

/-- The status a client is sent. A handler that raises is answered for by the library, and a
process that has ended answers nothing. -/
def sentStatus {σ α : Type} (status : α → StatusCode) :
    EStateM.Result Halt σ α → Option StatusCode
  | .ok value _ => some (status value)
  | .error .raised _ => some .INTERNAL_SERVER_ERROR
  | .error .rejected _ | .error .exited _ | .error .crashed _ => none

/-- The status of a response, which is a success where the handler has set none. -/
def Response.sent (response : Response) : StatusCode := response.status.getD .OK

section Statement

variable (host : Host) (server : Server) (req : Request)

/-- The status a client is sent for a request. -/
def responseStatus (endpoint : Endpoint) : Option StatusCode :=
  sentStatus Response.sent ((handle req endpoint).run (does host) server)

/-- The operation of the manager a request asks for. An update begins by parsing its patch. -/
def Endpoint.operation : Endpoint → Option (Managing PUnit)
  | .postRunningUpdate => some do
    let patch ← attempt (host.parseJson req.body)
    Manager.makeCandidateConfig host.env patch
  | .putCandidate files => some (Manager.applyCandidateConfig files)
  | .deleteCandidate => some (Manager.cancelCandidateConfig host.env)
  | .postSessionToken | .deleteSessionToken | .getRunning | .postRunningDiff | .getCandidate => none

/-- A client is told of success exactly when the operation answers `true`. -/
def TellsTruth (endpoint : Endpoint) (body : Managing PUnit) : Prop :=
  (∃ status ∈ responseStatus host server req endpoint, IsSuccess status = true) ↔
    ∃ next, body server.manager = .ok ⟨⟩ next

instance (endpoint : Endpoint) (body : Managing PUnit) :
    Decidable (TellsTruth host server req endpoint body) :=
  decidable_of_iff
    ((∃ status ∈ responseStatus host server req endpoint, IsSuccess status = true) ↔
      (returned (body server.manager)).isSome = true) <| by
    refine iff_congr Iff.rfl ?_
    cases body server.manager with
    | ok value next => exact iff_of_true rfl ⟨next, rfl⟩
    | error reason next =>
        refine iff_of_false Bool.false_ne_true fun ⟨_, impossible⟩ => ?_
        cases impossible

end Statement

/-- The status the callback of a request makes of an answer of the manager. -/
def Endpoint.status : Endpoint → (answer : Bool) → StatusCode
  | .postRunningUpdate, answer => if answer then .OK else .INTERNAL_SERVER_ERROR
  | _, _ => .OK

variable {host : Host} {server : Server} {req : Request} {endpoint : Endpoint}

section Callbacks

variable {manager : Manager}

theorem sentStatus_callback {cb : RequestCallback} {body : Managing Bool} {path request_data : Str}
    {status : Bool → StatusCode} {data : Bool → Str} {start : StatusCode}
    (calls : cb path request_data [] = do
      let answer ← body
      return (status answer, data answer))
    (ends : ∀ answer, status answer ≠ .INTERNAL_SUCCESS) :
    sentStatus Prod.fst (processCallbacks path request_data [cb] start [] manager) =
      sentStatus status (body manager) := by
  cases ran : body manager with
  | ok answer next =>
      have handled : cb path request_data [] manager = .ok (status answer, data answer) next := by
        rw [calls, bind_of_ok ran]
        rfl
      rw [processCallbacks_of_ok handled (ends answer)]
      rfl
  | error reason next =>
      have halted : cb path request_data [] manager = .error reason next := by
        rw [calls, bind_of_error ran]
      rw [processCallbacks_of_error halted]
      cases reason <;> rfl

/-- What is computed before an operation halts as it does, unless it is refused. -/
theorem answered_attempt_bind {α : Type} {result : Attempt α} (avoids : Avoids .rejected result)
    (next : α → Managing PUnit) :
    answered (attempt result >>= next) = attempt result >>= fun value => answered (next value) := by
  funext manager
  cases result with
  | ok value => rfl
  | error reason =>
      cases reason with
      | rejected => exact absurd rfl avoids
      | raised | exited | crashed => rfl

theorem parseJson_avoids (host : Host) (text : Str) : Avoids Halt.rejected (host.parseJson text) := by
  unfold Host.parseJson
  cases host.parse text with
  | none => exact avoids_error (by decide)
  | some json => exact avoids_ok _ _

theorem sentStatus_update (manager : Manager) {body : Managing PUnit}
    (asks : body ∈ Endpoint.postRunningUpdate.operation host req) :
    sentStatus Prod.fst (processRequest host .success .POST URIRequestPath.RUNNING_UPDATE req.body
      manager) = sentStatus (Endpoint.status .postRunningUpdate) (answered body manager) := by
  cases asks
  have skips : processRequest host .success .POST URIRequestPath.RUNNING_UPDATE req.body =
      processCallbacks URIRequestPath.RUNNING_UPDATE req.body [config_running_update host]
        .INTERNAL_SUCCESS [] := processCallbacks_of_skipped (onPath_other (by decide))
  rw [skips]
  apply sentStatus_callback
  · rw [answered_attempt_bind (parseJson_avoids host req.body), bind_assoc]
    exact onPath_self
  · decide

theorem sentStatus_conclusion (manager : Manager) {files : FileOutcome} {method : Method}
    {body : Managing PUnit} (asks : body ∈ conclusion host files method) :
    sentStatus Prod.fst (processRequest host files method URIRequestPath.CANDIDATE req.body
      manager) = sentStatus (fun _ => .OK) (answered body manager) := by
  rw [processRequest_conclusion asks]
  apply sentStatus_callback
  · exact onPath_self
  · intro _ impossible
    cases impossible

end Callbacks

section Handlers

/-- A handler sends the status it is given. -/
theorem sentStatus_respond (files : FileOutcome) (method : Method) (path : Str) :
    sentStatus Response.sent ((respond files method path req).run (does host) server) =
      sentStatus Prod.fst (processRequest host files method path req.body server.manager) := by
  have asks : (ask (.processRequest files method path req.body)).run (does host) server =
      onManager (FlexConfig.processRequest host files method path req.body) server :=
    congrFun (run_ask _) server
  cases ran : FlexConfig.processRequest host files method path req.body server.manager with
  | ok result next =>
      have asked := asks.trans (onManager_of_ok ran)
      rw [respond, run_bind_of_ok asked]
      rfl
  | error reason next =>
      have asked := asks.trans (onManager_of_error ran)
      rw [respond, run_bind_of_error asked]
      cases reason <;> rfl

theorem responseStatus_conclude {files : FileOutcome} {method : Method} {token : Str}
    (concluding : Concluding endpoint files method)
    (requests : Requests req token server.sessions)
    (active : server.sessions.activeSessionToken = some token) :
    responseStatus host server req endpoint =
      sentStatus Prod.fst (processRequest host files method URIRequestPath.CANDIDATE req.body
        server.manager) := by
  rw [responseStatus, handle_of_concluding concluding, concludeCandidate,
    run_bind_of_ok (run_checkActiveSessionToken requests active), if_pos rfl]
  obtain ⟨answer, cancelled⟩ := run_cancel host requests
  rw [run_bind_of_ok cancelled]
  exact sentStatus_respond files method URIRequestPath.CANDIDATE

/-- The timer that is set afterwards does not change the status of an update. -/
theorem responseStatus_update {token : Str} (requests : Requests req token server.sessions)
    (free : server.sessions.FreeFor token) :
    responseStatus host server req .postRunningUpdate =
      sentStatus Prod.fst (processRequest host .success .POST URIRequestPath.RUNNING_UPDATE
        req.body server.manager) := by
  have cancelled : ∃ answer, (CancelSessionTokenTimerOnce req).run (does host)
      ⟨server.clock, activated server.clock token server.sessions, server.manager⟩ =
        .ok answer ⟨server.clock, updatingSessions server.clock token server.sessions,
          server.manager⟩ := run_cancel host (requests_activated requests)
  obtain ⟨answer, cancelled⟩ := cancelled
  rw [responseStatus, handle, run_bind_of_ok (run_activate requests free), if_pos rfl,
    run_bind_of_ok cancelled]
  have responds : sentStatus Response.sent
      ((respond .success .POST URIRequestPath.RUNNING_UPDATE req).run (does host)
        ⟨server.clock, updatingSessions server.clock token server.sessions, server.manager⟩) = _ :=
    sentStatus_respond .success .POST URIRequestPath.RUNNING_UPDATE
  rw [← responds]
  cases ran : FlexConfig.processRequest host .success .POST URIRequestPath.RUNNING_UPDATE req.body
      server.manager with
  | error reason manager =>
      have halted : (respond .success .POST URIRequestPath.RUNNING_UPDATE req).run (does host)
          ⟨server.clock, updatingSessions server.clock token server.sessions, server.manager⟩ =
        .error reason _ := run_respond_of_error ran
      rw [run_bind_of_error halted, halted]
  | ok result manager =>
      have responded : ∃ response,
          (respond .success .POST URIRequestPath.RUNNING_UPDATE req).run (does host)
            ⟨server.clock, updatingSessions server.clock token server.sessions, server.manager⟩ =
          .ok response ⟨server.clock, updatingSessions server.clock token server.sessions,
            manager⟩ := run_respond_of_ok ran
      obtain ⟨response, responded⟩ := responded
      have set : (SetSessionTokenTimerOnce req .withdrawCandidate confirmationTimeoutSec).run
          (does host) ⟨server.clock, updatingSessions server.clock token server.sessions,
            manager⟩ = .ok _ _ :=
        run_set (requests_updating requests) .withdrawCandidate confirmationTimeoutSec
      rw [run_bind_of_ok responded, run_bind_of_ok set, responded]
      rfl

/-- The status a client is sent is the one the answer of the operation is made into. -/
theorem responseStatus_eq {token : Str} {body : Managing PUnit}
    (accepts : Accepts server req endpoint token) (asks : body ∈ endpoint.operation host req) :
    responseStatus host server req endpoint =
      sentStatus endpoint.status (answered body server.manager) := by
  cases endpoint with
  | postRunningUpdate =>
      exact (responseStatus_update accepts.1 accepts.2).trans (sentStatus_update _ asks)
  | putCandidate files =>
      cases asks
      have concluding : Concluding (.putCandidate files) files .PUT := ⟨rfl, rfl⟩
      exact (responseStatus_conclude concluding accepts.1 accepts.2).trans
        (sentStatus_conclusion _ rfl)
  | deleteCandidate =>
      cases asks
      have concluding : Concluding .deleteCandidate .success .DEL := ⟨rfl, rfl⟩
      exact (responseStatus_conclude concluding accepts.1 accepts.2).trans
        (sentStatus_conclusion _ rfl)
  | postSessionToken | deleteSessionToken | getRunning | postRunningDiff | getCandidate =>
      cases asks

end Handlers

/-- An operation that is refused is reported to have succeeded, where its callback does not
look at the answer; other outcomes are reported as they are. -/
theorem tellsTruth_iff_unrefused {token : Str} {body : Managing PUnit}
    (accepts : Accepts server req endpoint token) (asks : body ∈ endpoint.operation host req) :
    TellsTruth host server req endpoint body ↔
      (Refuses body server.manager → IsSuccess (endpoint.status false) = false) := by
  have whenTrue : IsSuccess (endpoint.status true) = true := by cases endpoint <;> rfl
  rw [TellsTruth, responseStatus_eq accepts asks]
  cases ran : body server.manager with
  | ok value next =>
      rw [answered_of_ok ran]
      refine iff_of_true (iff_of_true ⟨_, rfl, whenTrue⟩ ⟨next, rfl⟩) ?_
      rintro ⟨_, refused⟩
      cases ran.symm.trans refused
  | error reason next =>
      have failed : ¬ ∃ after, (.error reason next : EStateM.Result Halt Manager PUnit) =
          .ok ⟨⟩ after := by
        rintro ⟨_, ⟨⟩⟩
      rw [iff_false_right failed, answered, ran]
      cases reason with
      | rejected =>
          have refuses : Refuses body server.manager := ⟨next, ran⟩
          simp [sentStatus, refuses]
      | raised | exited | crashed =>
          refine iff_of_true (by simp [sentStatus, IsSuccess, StatusCode.code]) ?_
          rintro ⟨_, refused⟩
          cases ran.symm.trans refused

/-- The operation of a request is not refused: a candidate is applied to a file that can be
written, or cancelled for a running document it can go back to. An update may be refused. -/
def Unrefused (host : Host) (manager : Manager) : Endpoint → Prop
  | .putCandidate files => Manager.Applies files manager
  | .deleteCandidate => Manager.Cancels host.env manager
  | .postSessionToken | .deleteSessionToken | .getRunning | .postRunningUpdate | .postRunningDiff
  | .getCandidate => True

/-- The status tells the truth of every update, and of an apply or a cancellation exactly
when that is not refused. -/
theorem tells_truth_iff {token : Str} {body : Managing PUnit}
    (accepts : Accepts server req endpoint token) (asks : body ∈ endpoint.operation host req) :
    TellsTruth host server req endpoint body ↔ Unrefused host server.manager endpoint := by
  rw [tellsTruth_iff_unrefused accepts asks]
  cases endpoint with
  | postRunningUpdate => exact iff_of_true (fun _ => rfl) trivial
  | putCandidate files =>
      cases asks
      rw [Manager.apply_refuses_iff]
      exact ⟨fun holds => not_not.mp fun refused => Bool.false_ne_true (holds refused).symm,
        fun applies refused => absurd applies refused⟩
  | deleteCandidate =>
      cases asks
      rw [Manager.cancel_refuses_iff]
      exact ⟨fun holds => not_not.mp fun refused => Bool.false_ne_true (holds refused).symm,
        fun cancels refused => absurd cancels refused⟩
  | postSessionToken | deleteSessionToken | getRunning | postRunningDiff | getCandidate =>
      cases asks

end FlexConfig.Server

namespace FlexConfig.Sample

open Concurrent Server

/-- A session updates and confirms. -/
def confirmed : List Call :=
  [.request (leasing "s") .postSessionToken,
    .request (bearer "s" replaceText) .postRunningUpdate,
    .request (bearer "s" []) (.putCandidate .success)]

/-- The server a sequence of calls leads to. -/
def serverAfter (calls : List Call) : Option Server := do
  let server ← Server.start oneLeafHost oneLeafConfig
  let last ← (follow (serve oneLeafHost) calls server).getLast?
  return last.2

/-- A second confirmation finds no candidate, and is answered with success. -/
theorem second_confirmation_succeeds :
    ¬ ∀ (host : Host) (server : Server) (req : HTTP.Request) (endpoint : Endpoint) (token : Str)
        (body : Managing PUnit), Accepts server req endpoint token →
          body ∈ endpoint.operation host req → TellsTruth host server req endpoint body := by
  intro truthful
  have told : ∃ server ∈ serverAfter confirmed,
      Accepts server (bearer "s" []) (.putCandidate .success) "s".toList ∧
        ¬ TellsTruth oneLeafHost server (bearer "s" []) (.putCandidate .success)
          (Manager.applyCandidateConfig .success) := by
    decide +kernel
  obtain ⟨server, _, accepts, untrue⟩ := told
  exact untrue (truthful oneLeafHost server _ _ _ _ accepts rfl)

/-- The first one finds the candidate, and its answer is true. -/
theorem first_confirmation_told :
    ∃ server ∈ serverAfter (confirmed.take 2),
      TellsTruth oneLeafHost server (bearer "s" []) (.putCandidate .success)
        (Manager.applyCandidateConfig .success) := by
  have pending : ∃ server ∈ serverAfter (confirmed.take 2),
      Accepts server (bearer "s" []) (.putCandidate .success) "s".toList ∧
        Manager.Applies .success server.manager := by
    decide +kernel
  obtain ⟨server, served, accepts, applies⟩ := pending
  exact ⟨server, served, (tells_truth_iff accepts rfl).mpr applies⟩

end FlexConfig.Sample
