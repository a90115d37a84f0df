import FlexConfig.Foundation.Effect
import FlexConfig.Manager.Operations

/-! # Saving an applied candidate

`applyCandidateConfig` writes the candidate to a temporary file and renames it to the
configuration file. A buffered write may report its failure only when the stream is flushed or
closed. The error flag of the stream stays once it is set, but it is looked at only after the
file was opened and after the text was handed to the stream. So the file is replaced and the
candidate taken over although the stream failed, exactly where flushing or closing is the first
operation to fail.
-/

namespace FlexConfig

open Procedure

/-- The file operations of a save. -/
inductive FileStep where
  | opening
  | writing
  | flushing
  | closing
  | renaming
  deriving DecidableEq

/-- The file operations done so far, each with whether it succeeded. -/
abbrev FileTrace := List (FileStep × Bool)

/-- The operations of the manager on its files. -/
abbrev Saving := EStateM Halt (Manager × FileTrace)

/-- `std::ofstream`: whether no error flag is set. -/
structure OutStream where
  good : Bool

section Operations

variable (succeeds : FileStep → Bool)

/-- Do a file operation. -/
def perform (step : FileStep) : Saving Bool := fun state =>
  .ok (succeeds step) (state.1, state.2 ++ [(step, succeeds step)])

/-- Open a stream. -/
def OutStream.openFile : Saving OutStream := do
  let opened ← perform succeeds .opening
  return ⟨opened⟩

/-- Output to a stream is left out where its flag is set. -/
def OutStream.output (stream : OutStream) (step : FileStep) : Saving OutStream :=
  if stream.good then do
    let done ← perform succeeds step
    return ⟨done⟩
  else return stream

/-- Closing a stream closes the file in any case, and does not clear the flag. -/
def OutStream.close (stream : OutStream) : Saving OutStream := do
  let closed ← perform succeeds .closing
  return ⟨stream.good && closed⟩

namespace Manager

/-- `Config::Manager::applyCandidateConfig`, one file operation at a time. A stream that failed
leaves something else than the text in the file. -/
def saveCandidateConfig (left : Option Json) : Saving PUnit := do
  let manager := (← get).1
  if !manager.isCandidateConfigReady then throw .rejected
  else do
    let json_file ← OutStream.openFile succeeds
    if !json_file.good then throw .rejected
    else do
      let candidate_jconfig ← attempt (storedJson manager.candidateJson)
      let json_file ← json_file.output succeeds .writing
      if !json_file.good then throw .rejected
      else do
        let json_file ← json_file.output succeeds .flushing
        let json_file ← json_file.close succeeds
        let renamed ← perform succeeds .renaming
        if !renamed then throw .rejected
        else
          modify fun state => ({ manager with
            configFile := if json_file.good then some candidate_jconfig else left
            runningConfig := manager.candidateConfig
            runningJson := candidate_jconfig
            candidateConfig := none
            candidateJson := .null
            isCandidateConfigReady := false }, state.2)

end Manager

end Operations

section Outcome

variable {succeeds : FileStep → Bool}

theorem perform_bind {α : Type} (step : FileStep) (next : Bool → Saving α)
    (state : Manager × FileTrace) :
    (perform succeeds step >>= next) state =
      next (succeeds step) (state.1, state.2 ++ [(step, succeeds step)]) := rfl

/-- Output to a good stream does the operation. -/
theorem output_good_bind {α : Type} (step : FileStep) (next : OutStream → Saving α)
    (state : Manager × FileTrace) :
    (OutStream.output succeeds ⟨true⟩ step >>= next) state =
      next ⟨succeeds step⟩ (state.1, state.2 ++ [(step, succeeds step)]) := rfl

theorem close_bind {α : Type} (good : Bool) (next : OutStream → Saving α)
    (state : Manager × FileTrace) :
    (OutStream.close succeeds ⟨good⟩ >>= next) state =
      next ⟨good && succeeds .closing⟩
        (state.1, state.2 ++ [(.closing, succeeds .closing)]) := rfl

namespace Manager

variable {manager : Manager} {left : Option Json}

/-- The manager after a save. -/
def saved (manager : Manager) (succeeds : FileStep → Bool) (left : Option Json) : Manager :=
  { manager with
    configFile :=
      if succeeds .flushing && succeeds .closing then some manager.candidateJson else left
    runningConfig := manager.candidateConfig
    runningJson := manager.candidateJson
    candidateConfig := none
    candidateJson := .null
    isCandidateConfigReady := false }

/-- The file operations of a save that comes to the renaming. -/
def fullTrace (succeeds : FileStep → Bool) : FileTrace :=
  [.opening, .writing, .flushing, .closing, .renaming].map fun step => (step, succeeds step)

/-- Without a pending candidate no file is touched. -/
theorem save_of_not_ready (idle : manager.isCandidateConfigReady = false) :
    saveCandidateConfig succeeds left (manager, []) = .error .rejected (manager, []) := by
  unfold saveCandidateConfig
  rw [get_bind]
  simp only [idle, Bool.not_false, if_true]
  rfl

theorem save_of_not_opened (ready : manager.isCandidateConfigReady = true)
    (unopened : succeeds .opening = false) :
    saveCandidateConfig succeeds left (manager, []) =
      .error .rejected (manager, [(.opening, false)]) := by
  unfold saveCandidateConfig OutStream.openFile
  rw [get_bind]
  simp only [ready, Bool.not_true, Bool.false_eq_true, if_false, bind_assoc, pure_bind]
  rw [perform_bind, unopened]
  rfl

/-- A candidate document that is not set raises before anything is written. -/
theorem save_of_unset (ready : manager.isCandidateConfigReady = true)
    (opened : succeeds .opening = true) (document : manager.candidateJson = .null) :
    saveCandidateConfig succeeds left (manager, []) =
      .error .raised (manager, [(.opening, true)]) := by
  unfold saveCandidateConfig OutStream.openFile
  rw [get_bind]
  simp only [ready, Bool.not_true, Bool.false_eq_true, if_false, bind_assoc, pure_bind]
  rw [perform_bind, opened, document]
  rfl

theorem save_of_not_written (ready : manager.isCandidateConfigReady = true)
    (opened : succeeds .opening = true) (document : manager.candidateJson ≠ .null)
    (unwritten : succeeds .writing = false) :
    saveCandidateConfig succeeds left (manager, []) =
      .error .rejected (manager, [(.opening, true), (.writing, false)]) := by
  unfold saveCandidateConfig OutStream.openFile
  rw [get_bind]
  simp only [ready, Bool.not_true, Bool.false_eq_true, if_false, bind_assoc, pure_bind]
  rw [perform_bind, opened, storedJson, if_neg document]
  simp only [Bool.not_true, Bool.false_eq_true, if_false]
  rw [attempt_ok_bind, output_good_bind, unwritten]
  rfl

/-- Once the text is handed to the stream only the renaming decides. -/
theorem save_of_written (ready : manager.isCandidateConfigReady = true)
    (opened : succeeds .opening = true) (document : manager.candidateJson ≠ .null)
    (written : succeeds .writing = true) :
    saveCandidateConfig succeeds left (manager, []) =
      if succeeds .renaming then .ok ⟨⟩ (manager.saved succeeds left, fullTrace succeeds)
      else .error .rejected (manager, fullTrace succeeds) := by
  unfold saveCandidateConfig OutStream.openFile
  rw [get_bind]
  simp only [ready, Bool.not_true, Bool.false_eq_true, if_false, bind_assoc, pure_bind]
  rw [perform_bind, opened, storedJson, if_neg document]
  simp only [Bool.not_true, Bool.false_eq_true, if_false]
  rw [attempt_ok_bind, output_good_bind, written]
  simp only [Bool.not_true, Bool.false_eq_true, if_false]
  rw [output_good_bind, close_bind, perform_bind]
  cases renames : succeeds .renaming with
  | true =>
      simp only [fullTrace, List.map_cons, List.map_nil, renames, opened, written]
      rfl
  | false =>
      simp only [fullTrace, List.map_cons, List.map_nil, renames, opened, written]
      rfl

/-- A result without the file operations. -/
def withoutTrace : EStateM.Result Halt (Manager × FileTrace) PUnit →
    EStateM.Result Halt Manager PUnit
  | .ok value state => .ok value state.1
  | .error reason state => .error reason state.1

/-- The outcome of the file operations as a whole: the file has the text where the stream is
good after it was closed. -/
def fileOutcome (succeeds : FileStep → Bool) : FileOutcome where
  opens := succeeds .opening
  writes := succeeds .writing
  flushes := succeeds .flushing && succeeds .closing
  renames := succeeds .renaming

/-- The single file operations do what the operation of the manager does with their outcome as
a whole, where a stream that failed leaves no JSON. -/
theorem withoutTrace_save (succeeds : FileStep → Bool) (manager : Manager) :
    withoutTrace (saveCandidateConfig succeeds none (manager, [])) =
      applyCandidateConfig (fileOutcome succeeds) manager := by
  unfold applyCandidateConfig
  rw [get_bind]
  cases ready : manager.isCandidateConfigReady with
  | false =>
      rw [save_of_not_ready ready]
      rfl
  | true =>
      cases opened : succeeds .opening with
      | false =>
          rw [save_of_not_opened ready opened]
          simp only [fileOutcome, opened]
          rfl
      | true =>
          simp only [fileOutcome, opened, Bool.not_true, Bool.or_self, Bool.false_eq_true, if_false]
          by_cases document : manager.candidateJson = .null
          · rw [save_of_unset ready opened document, document]
            rfl
          · rw [storedJson, if_neg document, attempt_ok_bind]
            cases written : succeeds .writing with
            | false =>
                rw [save_of_not_written ready opened document written]
                rfl
            | true =>
                rw [save_of_written ready opened document written]
                cases renames : succeeds .renaming with
                | false => rfl
                | true => rfl

/-- A save is atomic: where a file operation fails it is refused and changes nothing, and where
it succeeds the file and the running document are the candidate document. -/
structure SavesAtomically (succeeds : FileStep → Bool) (left : Option Json) (manager : Manager) :
    Prop where
  refused : (∃ step, (step, false) ∈ (final (saveCandidateConfig succeeds left (manager, []))).2) →
    ∃ trace, saveCandidateConfig succeeds left (manager, []) = .error .rejected (manager, trace)
  complete : ∀ after trace,
    saveCandidateConfig succeeds left (manager, []) = .ok ⟨⟩ (after, trace) →
      after.configFile = some manager.candidateJson ∧ after.runningJson = manager.candidateJson

/-- A save that is refused is atomic. -/
theorem savesAtomically_of_rejected {trace : FileTrace}
    (rejected : saveCandidateConfig succeeds left (manager, []) =
      .error .rejected (manager, trace)) :
    SavesAtomically succeeds left manager where
  refused _ := ⟨trace, rejected⟩
  complete after trace saves := by cases rejected.symm.trans saves

/-- A save that raises before an operation fails is atomic. -/
theorem savesAtomically_of_raised {trace : FileTrace}
    (raised : saveCandidateConfig succeeds left (manager, []) = .error .raised (manager, trace))
    (clean : ∀ step, (step, false) ∉ trace) : SavesAtomically succeeds left manager where
  refused fails := by
    obtain ⟨step, member⟩ := fails
    rw [raised] at member
    exact absurd member (clean step)
  complete after trace saves := by cases raised.symm.trans saves

/-- A save that takes the candidate over is atomic exactly when the stream did not fail. -/
theorem savesAtomically_of_saved (opened : succeeds .opening = true)
    (written : succeeds .writing = true) (renamed : succeeds .renaming = true)
    (saves : saveCandidateConfig succeeds left (manager, []) =
      .ok ⟨⟩ (manager.saved succeeds left, fullTrace succeeds)) :
    SavesAtomically succeeds left manager ↔
      succeeds .flushing = true ∧ succeeds .closing = true := by
  constructor
  · intro atomic
    have clean : ∀ step, (step, false) ∉ fullTrace succeeds := by
      intro step member
      have fails : (step, false) ∈
          (final (saveCandidateConfig succeeds left (manager, []))).2 := by
        rw [saves]
        exact member
      obtain ⟨trace, rejected⟩ := atomic.refused ⟨step, fails⟩
      cases saves.symm.trans rejected
    constructor
    · refine eq_true_of_ne_false fun fails => clean .flushing ?_
      exact List.mem_map.mpr ⟨.flushing, by decide, by rw [fails]⟩
    · refine eq_true_of_ne_false fun fails => clean .closing ?_
      exact List.mem_map.mpr ⟨.closing, by decide, by rw [fails]⟩
  · intro arrives
    obtain ⟨flushed, closed⟩ := arrives
    refine ⟨fun fails => ?_, fun after trace ends => ?_⟩
    · obtain ⟨step, member⟩ := fails
      rw [saves] at member
      obtain ⟨other, _, same⟩ := List.mem_map.mp member
      cases other <;> simp [opened, written, flushed, closed, renamed] at same
    · cases saves.symm.trans ends
      refine ⟨?_, rfl⟩
      simp only [saved, flushed, closed, Bool.and_self, if_true]

/-- A pending candidate is saved atomically exactly when flushing and closing do not fail, or
the save ends before they are done or at the renaming. -/
theorem savesAtomically_iff (succeeds : FileStep → Bool) (left : Option Json)
    (ready : manager.isCandidateConfigReady = true) :
    SavesAtomically succeeds left manager ↔
      (succeeds .flushing = true ∧ succeeds .closing = true) ∨
        manager.candidateJson = .null ∨
        succeeds .opening = false ∨ succeeds .writing = false ∨ succeeds .renaming = false := by
  cases opened : succeeds .opening with
  | false => simp [savesAtomically_of_rejected (save_of_not_opened ready opened)]
  | true =>
      by_cases document : manager.candidateJson = .null
      · have atomic : SavesAtomically succeeds left manager :=
          savesAtomically_of_raised (save_of_unset ready opened document)
            fun step member => by cases List.mem_singleton.mp member
        simp [atomic, document]
      · cases written : succeeds .writing with
        | false =>
            simp [savesAtomically_of_rejected (save_of_not_written ready opened document written)]
        | true =>
            have ends : saveCandidateConfig succeeds left (manager, []) = _ :=
              save_of_written ready opened document written
            cases renamed : succeeds .renaming with
            | false =>
                rw [renamed, if_neg Bool.false_ne_true] at ends
                simp [savesAtomically_of_rejected ends]
            | true =>
                rw [renamed, if_pos rfl] at ends
                simp [savesAtomically_of_saved opened written renamed ends, document]

end Manager

end Outcome

end FlexConfig

namespace FlexConfig.Sample

/-- A manager with a candidate that is still to be saved. -/
def pendingCandidate : Manager where
  configFile := some (object [])
  runningConfig := some (.composite [])
  runningJson := object []
  candidateConfig := some (.composite [("a".toList, .leaf "1".toList)])
  candidateJson := object [("a", text "1")]
  isCandidateConfigReady := true
  runningReferences := []
  candidateReferences := []
  posts := []

/-- The disk is full when the stream is flushed. -/
def fullDisk (step : FileStep) : Bool := step ≠ .flushing

/-- Where the renaming fails the candidate stays pending. -/
theorem not_renamed_atomic :
    Manager.SavesAtomically (fun step => step ≠ .renaming) none pendingCandidate :=
  (Manager.savesAtomically_iff _ none rfl).mpr (.inr (.inr (.inr (.inr (by decide)))))

/-- A text that did not reach the file is taken for saved. -/
theorem full_disk_saved :
    (∃ trace, Manager.saveCandidateConfig fullDisk none (pendingCandidate, []) =
      .ok ⟨⟩ (pendingCandidate.saved fullDisk none, trace) ∧ (FileStep.flushing, false) ∈ trace) ∧
      (pendingCandidate.saved fullDisk none).configFile = none ∧
      ¬ Manager.SavesAtomically fullDisk none pendingCandidate := by
  have document : pendingCandidate.candidateJson ≠ .null := by decide
  have saves : Manager.saveCandidateConfig fullDisk none (pendingCandidate, []) =
      .ok ⟨⟩ (pendingCandidate.saved fullDisk none, Manager.fullTrace fullDisk) :=
    Manager.save_of_written rfl rfl document rfl
  have fits := Manager.savesAtomically_of_saved rfl rfl rfl saves
  exact ⟨⟨_, saves, by decide⟩, rfl, fun atomic => by cases (fits.mp atomic).1⟩

end FlexConfig.Sample
