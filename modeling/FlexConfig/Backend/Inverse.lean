import FlexConfig.Backend.Mirror

/-! # Cancelling undoes making

A candidate that is made and then cancelled leaves the manager and the backend as they
were: the running configuration is not written, the candidate is dropped, and where both
calls keep the index and the mirror, index and backend describe the running configuration
again.
-/

namespace FlexConfig

open Procedure ItemStore

section Idle

variable {env : Env} {before after : Manager}

/-- While no candidate is pending, none is stored. -/
def Dropped (manager : Manager) : Prop :=
  manager.isCandidateConfigReady = false →
    manager.candidateConfig = none ∧ manager.candidateJson = .null

theorem dropped_of_make {patch : Json} (dropped : Dropped before) :
    Dropped (final (Manager.makeCandidateConfig env patch before)) := by
  cases made : Manager.makeCandidateConfig env patch before with
  | ok _ next =>
      obtain ⟨making, rfl⟩ := Manager.Making.make_eq_ok_iff.mp made
      intro idle
      cases idle
  | error reason next =>
      rcases Manager.make_eq_error made with rfl | ⟨root, draft, _, rfl, _⟩
      · exact dropped
      · exact dropped

theorem dropped_of_apply {files : FileOutcome} (dropped : Dropped before) :
    Dropped (final (Manager.applyCandidateConfig files before)) := by
  rcases Manager.apply_cases files before with ⟨reason, halted⟩ | ⟨_, _, applied⟩
  · rw [halted]
    exact dropped
  · rw [applied]
    exact fun _ => ⟨rfl, rfl⟩

/-- A cancellation is refused while no candidate is pending, and drops one that is. -/
theorem dropped_of_cancel (dropped : Dropped before) :
    Dropped (final (Manager.cancelCandidateConfig env before)) := by
  by_cases cancellable : ∃ patch jconfig tree, Manager.Cancellable env before patch jconfig tree
  · obtain ⟨patch, jconfig, tree, cancellable⟩ := cancellable
    rw [Manager.cancel_of_cancellable cancellable]
    have pending {manager : Manager}
        (same : manager.isCandidateConfigReady = before.isCandidateConfigReady) :
        Dropped manager := by
      intro idle
      rw [same, cancellable.ready] at idle
      cases idle
    split
    · exact fun _ => ⟨rfl, rfl⟩
    · exact pending rfl
    · exact pending rfl
  · obtain ⟨reason, halted⟩ := Manager.cancel_of_not_cancellable cancellable
    rw [halted]
    exact dropped

theorem dropped_of_step {op : Manager.Op} (dropped : Dropped before)
    (step : Manager.Step env before op after) : Dropped after := by
  obtain ⟨_, rfl⟩ := step
  cases op with
  | makeCandidateConfig patch => exact dropped_of_make dropped
  | applyCandidateConfig files => exact dropped_of_apply dropped
  | cancelCandidateConfig => exact dropped_of_cancel dropped

theorem dropped_of_loaded (loaded : Manager.Loaded env after) : Dropped after := by
  obtain ⟨jconfig, log, loaded⟩ := loaded
  obtain ⟨_, _, _, loaded⟩ := bind_eq_ok.mp loaded
  obtain ⟨_, _, _, loaded⟩ := bind_eq_ok.mp loaded
  rw [get_bind] at loaded
  cases loaded
  exact fun _ => ⟨rfl, rfl⟩

end Idle

section Inverse

variable {env : Env} {before made last : Manager}

/-- What a client and the backend can tell of a manager is as it was. -/
structure Restored (before after : Manager) : Prop where
  runningConfig : after.runningConfig = before.runningConfig
  runningJson : after.runningJson = before.runningJson
  candidateConfig : after.candidateConfig = before.candidateConfig
  candidateJson : after.candidateJson = before.candidateJson
  isCandidateConfigReady : after.isCandidateConfigReady = before.isCandidateConfigReady
  references : ∀ source target,
    source ∈ after.candidateReferences.sources target ↔
      source ∈ before.candidateReferences.sources target
  backend : backendOf after.posts = backendOf before.posts

/-- The calls that keep both the index and the mirror. -/
def Kept (env : Env) (manager : Manager) (op : Manager.Op) : Prop :=
  IndexKept env manager op ∧ MirrorKept env manager op

/-- Two idle managers with the same running configuration have the same index where both are
indexed. -/
theorem Indexed.sources_iff {after : Manager} (indexed : Indexed env before)
    (indexed' : Indexed env after) (running : after.runningConfig = before.runningConfig)
    (idle : before.isCandidateConfigReady = false) (idle' : after.isCandidateConfigReady = false)
    (source target : Str) :
    source ∈ after.candidateReferences.sources target ↔
      source ∈ before.candidateReferences.sources target := by
  obtain ⟨tree, here, _⟩ := indexed.running
  have agrees := indexed.idle idle tree here
  have agrees' := indexed'.idle idle' tree (running.trans here)
  exact (agrees' source target).trans (agrees source target).symm

/-- Two idle managers with the same running configuration have the same backend where both
are mirrored. -/
theorem Mirrored.backend_eq {after : Manager} (mirrored : Mirrored env before)
    (mirrored' : Mirrored env after) (running : after.runningConfig = before.runningConfig)
    (document : after.runningJson = before.runningJson)
    (idle : before.isCandidateConfigReady = false)
    (idle' : after.isCandidateConfigReady = false) :
    backendOf after.posts = backendOf before.posts := by
  obtain ⟨configuration, inForce, mirrors⟩ := mirrored.mirrors
  obtain ⟨configuration', inForce', mirrors'⟩ := mirrored'.mirrors
  have same : after.configuration = before.configuration := by
    unfold Manager.configuration
    rw [idle, idle', running, document]
    rfl
  have sameConfiguration := inForce'.symm.trans (same.trans inForce)
  cases sameConfiguration
  exact mirrors'.trans mirrors.symm

/-- In every idle state that calls which keep index and mirror have led to since the load of a
sound configuration, making a candidate and cancelling it, in calls that keep them as well,
restores the state. -/
theorem cancel_restores_of_run {first : Manager} (loaded : Manager.Loaded env first)
    (sound : ∀ tree ∈ first.runningConfig, Sound env tree)
    (run : Relation.ReflTransGen (Guarded (Manager.Step env) (Kept env)) first before)
    (idle : before.isCandidateConfigReady = false) {patch : Json}
    (makes : Manager.makeCandidateConfig env patch before = .ok ⟨⟩ made)
    (cancels : Manager.cancelCandidateConfig env made = .ok ⟨⟩ last)
    (makeKept : Kept env before (.makeCandidateConfig patch))
    (cancelKept : Kept env made .cancelCandidateConfig) : Restored before last := by
  have preserved : ∀ before op after,
      (MapsOrdered before ∧ Dropped before ∧ Indexed env before ∧ Mirrored env before) →
        Kept env before op → Manager.Step env before op after →
          MapsOrdered after ∧ Dropped after ∧ Indexed env after ∧ Mirrored env after := by
    intro _ _ _ invariant kept step
    obtain ⟨maps, dropped, indexed, mirrored⟩ := invariant
    exact ⟨mapsOrdered_of_step maps step, dropped_of_step dropped step,
      indexed_of_step indexed maps kept.1 step, mirrored_of_step mirrored maps kept.2 step⟩
  obtain ⟨maps, dropped, indexed, mirrored⟩ := invariant_of_run _ preserved
    ⟨mapsOrdered_of_loaded loaded, dropped_of_loaded loaded, indexed_of_loaded loaded sound,
      mirrored_of_loaded loaded sound⟩ run
  have goes : Manager.Step env before (.makeCandidateConfig patch) made := by
    refine ⟨?_, ?_⟩
    · change Manager.goesOn (Manager.makeCandidateConfig env patch before) = true
      rw [makes]
      rfl
    · change made = final (Manager.makeCandidateConfig env patch before)
      rw [makes]
      rfl
  have mapsMade := mapsOrdered_of_step maps goes
  obtain ⟨making, rfl⟩ := Manager.Making.make_eq_ok_iff.mp makes
  obtain ⟨cancelling, rfl⟩ := Manager.Cancelling.cancel_eq_ok_iff.mp cancels
  have indexedMade := indexed_of_making indexed maps making makeKept.1
  have mirroredMade := mirrored_of_making mirrored maps making makeKept.2
  have indexedLast := indexed_of_cancelling indexedMade mapsMade cancelling cancelKept.1
  have mirroredLast := mirrored_of_cancelling mirroredMade mapsMade cancelling cancelKept.2
  obtain ⟨noTree, noDocument⟩ := dropped idle
  -- neither call writes the running configuration
  exact {
    runningConfig := rfl
    runningJson := rfl
    candidateConfig := noTree.symm
    candidateJson := noDocument.symm
    isCandidateConfigReady := idle.symm
    references := indexed.sources_iff indexedLast rfl idle rfl
    backend := mirrored.backend_eq mirroredLast rfl rfl idle rfl }

end Inverse

end FlexConfig

namespace FlexConfig.Sample

open Procedure

/-- A test for calls that return and keep the index and the mirror. -/
def keepsBoth (env : Env) (manager : Manager) (op : Manager.Op) : Bool :=
  keepsIndex env manager op && keepsMirror env manager op

theorem keepsBoth_sound {env : Env} (manager : Manager) (op : Manager.Op)
    (keeps : keepsBoth env manager op = true) : Kept env manager op := by
  obtain ⟨index, mirror⟩ := Bool.and_eq_true_iff.mp keeps
  exact ⟨keepsIndex_sound manager op index, keepsMirror_sound manager op mirror⟩

/-- Links, items of their own, that refer to the ports of their names, members of a container. -/
def linkedPorts : Env :=
  let action := ("action", object [("on-delete-path", text "/delete"),
    ("on-update-path", text "/update"), ("server-address", text "backend")])
  let port := object [action, ("properties", object [("mac", object [("type", text "string")])]),
    ("type", text "object")]
  let link := object [action, ("reference", text "/port/@"), ("type", text "string")]
  deployment (object [("properties", object [
    ("link", object [("properties", object [("p1", link), ("p2", link)])]),
    ("port", object [("patternProperties", object [("p1", port), ("p2", port)]),
      ("type", text "object")])])]) fun _ => true

def linkedPortsConfig : Json :=
  object [("link", object [("p1", text "up")]), ("port", object [("p1", object [("mac", text "x")])])]

/-- A port is added with a link to it. -/
def addLinkedPort : Json := .array [
  operation "replace" "/link/p1" (some (text "down")),
  operation "add" "/link/p2" (some (text "up")),
  operation "add" "/port/p2" (some (object [("mac", text "y")]))]

/-- A port is taken away with the link to it. -/
def removeLinkedPort : Json := .array [
  operation "replace" "/link/p1" (some (text "up")), operation "remove" "/link/p2" none,
  operation "remove" "/port/p2" none]

/-- After a link with its port is added and applied, taking both away and cancelling that restores
the state. -/
theorem cancel_restores_of_run_applied :
    ∃ first ∈ Manager.reached linkedPorts linkedPortsConfig [],
      ∃ before ∈ Manager.afterAdmitted linkedPorts (keepsBoth linkedPorts)
          [.makeCandidateConfig addLinkedPort, .applyCandidateConfig .success] first,
        ∃ made last, Manager.makeCandidateConfig linkedPorts removeLinkedPort before = .ok ⟨⟩ made ∧
          Manager.cancelCandidateConfig linkedPorts made = .ok ⟨⟩ last ∧
          made.candidateConfig ≠ before.runningConfig ∧ Restored before last := by
  have runs : ∃ first ∈ returned (Manager.load linkedPorts linkedPortsConfig []),
      (∀ tree ∈ first.1.runningConfig, Sound linkedPorts tree) ∧
      ∃ before ∈ Manager.afterAdmitted linkedPorts (keepsBoth linkedPorts)
          [.makeCandidateConfig addLinkedPort, .applyCandidateConfig .success] first.1,
        before.isCandidateConfigReady = false ∧
        keepsBoth linkedPorts before (.makeCandidateConfig removeLinkedPort) ∧
        ∃ made ∈ returned (Manager.makeCandidateConfig linkedPorts removeLinkedPort before),
          keepsBoth linkedPorts made.2 .cancelCandidateConfig ∧
          made.2.candidateConfig ≠ before.runningConfig ∧
          (returned (Manager.cancelCandidateConfig linkedPorts made.2)).isSome := by
    decide +kernel
  obtain ⟨first, loads, sound, before, reaches, idle, makeKept, made, makes, cancelKept, differs,
    cancels⟩ := runs
  obtain ⟨last, cancels⟩ := Option.isSome_iff_exists.mp cancels
  have loaded := mem_returned.mp loads
  have makes := mem_returned.mp makes
  have cancels := mem_returned.mp cancels
  have starts : first.1 ∈ Manager.reached linkedPorts linkedPortsConfig [] := by
    unfold Manager.reached
    rw [loaded]
    rfl
  have restored := cancel_restores_of_run ⟨_, _, loaded⟩ sound
    (Manager.run_of_afterAdmitted keepsBoth_sound reaches) idle makes cancels
    (keepsBoth_sound before _ makeKept) (keepsBoth_sound made.2 _ cancelKept)
  exact ⟨first.1, starts, before, reaches, made.2, last.2, makes, cancels, differs, restored⟩

/-- Settings one of whose names begins the other one. -/
def similarSettings : Env :=
  deployment (object [("properties", object [
    ("set", object [("properties", object [("a1", posted), ("a10", posted)])])])]) fun _ => true

/-- When a setting is added and the candidate is cancelled, the backend has lost the setting
whose name begins with its name. -/
theorem cancel_takes_similar :
    ∃ before ∈ Manager.reached similarSettings (object [("set", object [("a10", text "y")])]) [],
      Manager.Reachable similarSettings before ∧ before.isCandidateConfigReady = false ∧
        ∃ made last,
          Manager.makeCandidateConfig similarSettings
              (.array [operation "add" "/set/a1" (some (text "x"))]) before = .ok ⟨⟩ made ∧
            Manager.cancelCandidateConfig similarSettings made = .ok ⟨⟩ last ∧
            (∀ entry ∈ last.posts, entry.2 = true) ∧ ¬ Restored before last := by
  have loses : ∃ before ∈ Manager.reached similarSettings
        (object [("set", object [("a10", text "y")])]) [],
      before.isCandidateConfigReady = false ∧
        ∃ made ∈ returned (Manager.makeCandidateConfig similarSettings
            (.array [operation "add" "/set/a1" (some (text "x"))]) before),
          ∃ last ∈ returned (Manager.cancelCandidateConfig similarSettings made.2),
            (∀ entry ∈ last.2.posts, entry.2 = true) ∧
              backendOf last.2.posts ≠ backendOf before.posts := by
    decide +kernel
  obtain ⟨before, reaches, idle, made, makes, last, cancels, answered, differs⟩ := loses
  exact ⟨before, reaches, Manager.reachedBy_of_reached (fun _ _ _ => trivial) reaches, idle, made.2,
    last.2, mem_returned.mp makes, mem_returned.mp cancels, answered,
    fun restored => differs restored.backend⟩

end FlexConfig.Sample
