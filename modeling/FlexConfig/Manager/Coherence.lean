import FlexConfig.Manager.Operations

/-! # Coherence of the manager's copies of the configuration

The running tree, the running document, the configuration file and the candidate
pair are written by different operations. They stay in agreement along every run in
which no cancellation halts after it has begun to edit the candidate tree in place.
-/

namespace FlexConfig

open Procedure

section Document

/-- Looking up a missing value leaves no null document. -/
theorem fillValue_ne_null {item : DiffItem} {json after : Json} (present : json ≠ .null)
    (filled : fillValue item json = .ok after) : after ≠ .null := by
  unfold fillValue at filled
  split at filled
  · cases filled
    exact present
  · obtain ⟨pointer, _, filled⟩ := except_bind_eq_ok.mp filled
    split at filled
    · exact Json.touched_ne_null present filled
    · cases filled
      exact present

theorem scanRemovals_ne_null {node_config : Node} {items : List DiffItem} {scan after : Scan}
    (present : scan.jsonConfig ≠ .null)
    (scanned : scanRemovals node_config items scan = .ok after) : after.jsonConfig ≠ .null := by
  induction items generalizing scan with
  | nil =>
      cases scanned
      exact present
  | cons item rest ih =>
      obtain ⟨filled, lookedUp, scanned⟩ := except_bind_eq_ok.mp scanned
      have stillPresent := fillValue_ne_null present lookedUp
      split at scanned
      · exact ih stillPresent scanned
      split at scanned
      · cases scanned
      split at scanned
      · cases scanned
      · exact ih stillPresent scanned

variable {env : Env}

/-- Loading an operation's nodes is refused for the path of the whole document, and leaves no
null document unless there was one. -/
theorem loadItem_document {item : DiffItem} {json after : Json} {before loaded : Node}
    (done : loadItem env item json before = .ok after loaded) :
    item.path ≠ [] ∧ (json ≠ .null → after ≠ .null) := by
  unfold loadItem at done
  dsimp only at done
  split at done
  · cases done
  next tokens =>
  have nonempty : item.path ≠ [] := by
    intro whole
    rw [whole] at tokens
    exact tokens rfl
  refine ⟨nonempty, fun present => ?_⟩
  obtain ⟨jschema, middle, attempted, located⟩ := bind_eq_ok.mp done
  obtain ⟨_, rfl⟩ := attempt_eq_ok.mp attempted
  rw [get_bind] at located
  split at located
  · cases located
  cases selected : XPath.select middle (XPath.mergeTokens (XPath.parse item.path).dropLast) with
  | none =>
      simp only [selected] at located
      cases located
  | some root_node =>
      simp only [selected] at located
      cases loader : subnodeLoader env jschema with
      | none =>
          simp only [loader] at located
          cases located
          exact present
      | some load =>
          simp only [loader] at located
          obtain ⟨pointer, _, _, located⟩ := bind_eq_ok.mp located
          obtain ⟨created, _, attempted, located⟩ := bind_eq_ok.mp located
          obtain ⟨jnode, _, _, located⟩ := bind_eq_ok.mp located
          obtain ⟨_, _, _, finished⟩ := bind_eq_ok.mp located
          cases finished
          exact Json.touched_ne_null present (attempt_eq_ok.mp attempted).1

/-- Loading the nodes of a patch is refused where an operation writes the whole document, and
leaves no null document unless there was one. -/
theorem loadAdded_document {items : List DiffItem} {json after : Json} {before loaded : Node}
    (done : loadAdded env items json before = .ok after loaded) :
    (∀ item ∈ items, item.isRemove = false → item.path ≠ []) ∧
      (json ≠ .null → after ≠ .null) := by
  induction items generalizing json before with
  | nil =>
      cases done
      exact ⟨fun _ impossible => absurd impossible List.not_mem_nil, fun present => present⟩
  | cons item rest ih =>
      rw [loadAdded] at done
      obtain ⟨filled, _, attempted, done⟩ := bind_eq_ok.mp done
      have lookedUp := (attempt_eq_ok.mp attempted).1
      split at done
      · next removes =>
          obtain ⟨others, final⟩ := ih done
          refine ⟨fun other member writes => ?_,
            fun present => final (fillValue_ne_null present lookedUp)⟩
          rcases List.mem_cons.mp member with rfl | later
          · rw [removes] at writes
            cases writes
          · exact others other later writes
      · obtain ⟨next, _, loadedItem, done⟩ := bind_eq_ok.mp done
        obtain ⟨nonempty, kept⟩ := loadItem_document loadedItem
        obtain ⟨others, final⟩ := ih done
        refine ⟨fun other member writes => ?_,
          fun present => final (kept (fillValue_ne_null present lookedUp))⟩
        rcases List.mem_cons.mp member with rfl | later
        · exact nonempty
        · exact others other later writes

theorem planRemoval_ne_null {patch jconfig : Json} {node_config : Node} {removal : Removal}
    {items : List DiffItem} (parsed : patch.patchItems = .ok items)
    (nonempty : ∀ item ∈ items, item.isRemove = false → item.path ≠ [])
    (present : jconfig ≠ .null)
    (planned : planRemoval env patch jconfig node_config = .ok removal) :
    removal.jsonConfig ≠ .null := by
  obtain ⟨json_config, patched, planned⟩ := except_bind_eq_ok.mp planned
  obtain ⟨_, _, planned⟩ := except_bind_eq_ok.mp planned
  obtain ⟨scan, scanned, planned⟩ := except_bind_eq_ok.mp planned
  have patchedPresent : json_config ≠ .null := by
    obtain ⟨result, applied, validated⟩ := except_bind_eq_ok.mp patched
    obtain ⟨items', parsed', applied⟩ := except_bind_eq_ok.mp applied
    rw [parsed] at parsed'
    cases parsed'
    obtain ⟨jschema, _, validated⟩ := except_bind_eq_ok.mp validated
    split at validated
    · cases validated
      exact Json.applyItems_ne_null present nonempty applied
    · cases validated
  dsimp only at planned
  split at planned
  · obtain ⟨ordered, _, planned⟩ := except_bind_eq_ok.mp planned
    obtain ⟨_, _, finished⟩ := except_bind_eq_ok.mp planned
    cases finished
    exact scanRemovals_ne_null patchedPresent scanned
  · cases planned

/-- The document the routine returns is not null. -/
theorem routine_ne_null {site : Site} {patch jconfig json_config : Json} {before after : Draft}
    (present : jconfig ≠ .null)
    (returned : fMakeCandidateConfigInternal env site patch jconfig before =
      .ok json_config after) : json_config ≠ .null := by
  obtain ⟨items, removal, index, log, begun, _, updated⟩ := routine_eq_ok.mp returned
  obtain ⟨edited, ordered, saved, rest, prepared, _, _⟩ := performUpdate_eq_ok.mp updated
  obtain ⟨_, middle, _, loaded⟩ := bind_eq_ok.mp prepared.edits
  obtain ⟨nonempty, final⟩ := loadAdded_document loaded
  exact final (planRemoval_ne_null begun.parsed nonempty present begun.planned)

end Document

section Coherence

variable (env : Env)

/-- A tree is there, and it is the one built from a document. -/
def Describes (config : Option Node) (jconfig : Json) : Prop :=
  ∃ root, config = some root ∧ buildTree env jconfig = .ok root

instance (config : Option Node) (jconfig : Json) : Decidable (Describes env config jconfig) :=
  match config with
  | none => isFalse fun ⟨_, missing, _⟩ => nomatch missing
  | some root => decidable_of_iff (buildTree env jconfig = .ok root)
      ⟨fun built => ⟨root, rfl, built⟩, fun ⟨_, same, built⟩ => by cases same; exact built⟩

/-- The copies of the configuration agree: the running tree is built from the running
document, which the configuration file holds; and a candidate tree and a candidate document
are both there, the one built from the other, exactly while a candidate is pending. -/
structure Coherent (manager : Manager) : Prop where
  running : Describes env manager.runningConfig manager.runningJson
  file : manager.configFile = some manager.runningJson
  pending : manager.isCandidateConfigReady = true →
    manager.candidateJson ≠ .null ∧ Describes env manager.candidateConfig manager.candidateJson
  idle : manager.isCandidateConfigReady = false →
    manager.candidateConfig = none ∧ manager.candidateJson = .null

instance (manager : Manager) : Decidable (Coherent env manager) :=
  decidable_of_iff
    (Describes env manager.runningConfig manager.runningJson ∧
      manager.configFile = some manager.runningJson ∧
      (manager.isCandidateConfigReady = true → manager.candidateJson ≠ .null ∧
        Describes env manager.candidateConfig manager.candidateJson) ∧
      (manager.isCandidateConfigReady = false →
        manager.candidateConfig = none ∧ manager.candidateJson = .null))
    ⟨fun ⟨running, file, pending, idle⟩ => ⟨running, file, pending, idle⟩,
      fun ⟨running, file, pending, idle⟩ => ⟨running, file, pending, idle⟩⟩

/-- The calls after which the copies still agree: file operations succeed, and a cancellation
does not halt with the candidate tree edited. -/
def Undisturbed (manager : Manager) : Manager.Op → Prop
  | .makeCandidateConfig _ => True
  | .applyCandidateConfig files => files = .success
  | .cancelCandidateConfig => ∀ patch jconfig tree,
      Manager.Cancellable env manager patch jconfig tree →
        ¬ HaltsEdited env manager.site patch jconfig (manager.runningDraft tree)

variable {env} {before after : Manager}

theorem coherent_of_make {patch : Json} (coherent : Coherent env before)
    (made : Manager.makeCandidateConfig env patch before = .ok ⟨⟩ after) :
    Coherent env after := by
  obtain ⟨root, json_config, draft, reloaded, admitted, ran, reload, rfl⟩ :=
    Manager.make_eq_ok.mp made
  obtain ⟨_, _, _, _, built, _⟩ := Manager.reload_eq_ok.mp reload
  exact {
    running := coherent.running
    file := coherent.file
    pending := fun _ =>
      ⟨routine_ne_null admitted.document ran, reloaded.1, rfl, built⟩
    idle := fun impossible => by cases impossible }

theorem coherent_of_make_error {patch : Json} {reason : Halt} (coherent : Coherent env before)
    (halted : Manager.makeCandidateConfig env patch before = .error reason after) :
    Coherent env after := by
  rcases Manager.make_eq_error halted with rfl | ⟨root, draft, _, rfl, _⟩
  · exact coherent
  · exact ⟨coherent.running, coherent.file, coherent.pending, coherent.idle⟩

theorem coherent_of_apply (coherent : Coherent env before) :
    Coherent env (final (Manager.applyCandidateConfig .success before)) := by
  rcases Manager.apply_cases .success before with ⟨reason, halted⟩ | ⟨ready, _, applied⟩
  · rw [halted]
    exact coherent
  · rw [applied]
    exact {
      running := (coherent.pending ready).2
      file := rfl
      pending := fun impossible => by cases impossible
      idle := fun _ => ⟨rfl, rfl⟩ }

/-- A cancellation that halts leaves the copies in agreement when it leaves the candidate tree
as it was. -/
theorem coherent_of_kept_tree {tree : Node} {draft : Draft} (coherent : Coherent env before)
    (candidate : before.candidateConfig = some tree) (kept : draft.nodeConfig = tree) :
    Coherent env (before.keepEdited draft) := by
  have same : (before.keepEdited draft).candidateConfig = before.candidateConfig := by
    rw [candidate, ← kept]
    rfl
  exact {
    running := coherent.running
    file := coherent.file
    pending := fun ready => by
      rw [same]
      exact coherent.pending ready
    idle := fun idle => by
      rw [same]
      exact coherent.idle idle }

theorem coherent_of_cancel (coherent : Coherent env before)
    (undisturbed : Undisturbed env before .cancelCandidateConfig) :
    Coherent env (final (Manager.cancelCandidateConfig env before)) := by
  by_cases cancellable : ∃ patch jconfig tree,
      Manager.Cancellable env before patch jconfig tree
  · obtain ⟨patch, jconfig, tree, cancellable⟩ := cancellable
    have unedited := undisturbed patch jconfig tree cancellable
    rw [Manager.cancel_of_cancellable cancellable]
    cases ran : fMakeCandidateConfigInternal env before.site patch jconfig
        (before.runningDraft tree) with
    | ok json_config draft =>
        exact {
          running := coherent.running
          file := coherent.file
          pending := fun impossible => by cases impossible
          idle := fun _ => ⟨rfl, rfl⟩ }
    | error reason draft =>
        have kept := (routine_error_keeps_tree_iff ran).mpr unedited
        have agreeing := coherent_of_kept_tree coherent cancellable.candidate kept
        cases reason with
        | rejected =>
            exact ⟨agreeing.running, agreeing.file, agreeing.pending, agreeing.idle⟩
        | raised | exited | crashed => exact agreeing
  · obtain ⟨reason, halted⟩ := Manager.cancel_of_not_cancellable cancellable
    rw [halted]
    exact coherent

theorem coherent_of_step {op : Manager.Op} (coherent : Coherent env before)
    (undisturbed : Undisturbed env before op) (step : Manager.Step env before op after) :
    Coherent env after := by
  obtain ⟨_, rfl⟩ := step
  cases op with
  | makeCandidateConfig patch =>
      change Coherent env (final (Manager.makeCandidateConfig env patch before))
      cases made : Manager.makeCandidateConfig env patch before with
      | ok _ next => exact coherent_of_make coherent made
      | error reason next => exact coherent_of_make_error coherent made
  | applyCandidateConfig files =>
      cases (undisturbed : files = .success)
      exact coherent_of_apply coherent
  | cancelCandidateConfig => exact coherent_of_cancel coherent undisturbed

theorem coherent_of_loaded (loaded : Manager.Loaded env after) : Coherent env after := by
  obtain ⟨jconfig, log, loaded⟩ := loaded
  obtain ⟨reloaded, _, attempted, loaded⟩ := bind_eq_ok.mp loaded
  obtain ⟨_, _, _, loaded⟩ := bind_eq_ok.mp loaded
  rw [get_bind] at loaded
  cases loaded
  obtain ⟨_, _, _, _, built, _⟩ := Manager.reload_eq_ok.mp (attempt_eq_ok.mp attempted).1
  exact {
    running := ⟨reloaded.1, rfl, built⟩
    file := rfl
    pending := fun impossible => by cases impossible
    idle := fun _ => ⟨rfl, rfl⟩ }

/-- In every state that undisturbed calls since a successful load have led to, the copies
agree. -/
theorem coherent_of_reached {last : Manager}
    (reached : Manager.ReachedBy env (Undisturbed env) last) : Coherent env last := by
  obtain ⟨first, loaded, run⟩ := reached
  exact invariant_of_run (Coherent env) (fun _ _ _ coherent undisturbed step =>
    coherent_of_step coherent undisturbed step) (coherent_of_loaded loaded) run

end Coherence

end FlexConfig

namespace FlexConfig.Sample

/-- Two leaves whose updates are posted; the fourth message is not answered. -/
def twoLeaves : Env :=
  deployment (container [("a", container [("b", posted), ("c", posted)])]) (· ≠ 3)

def twoLeavesConfig (b : String) : Json :=
  object [("a", object [("b", text b), ("c", text "kept")])]

def replaceB (b : String) : Json := .array [operation "replace" "/a/b" (some (text b))]

/-- The copies agree after a candidate is made and applied. -/
theorem coherent_of_reached_applied :
    ∃ last ∈ Manager.reached twoLeaves (twoLeavesConfig "old")
        [.makeCandidateConfig (replaceB "new"), .applyCandidateConfig .success],
      Coherent twoLeaves last := by
  have goesOn : (Manager.reached twoLeaves (twoLeavesConfig "old")
      [.makeCandidateConfig (replaceB "new"), .applyCandidateConfig .success]).isSome := by
    decide +kernel
  obtain ⟨last, reaches⟩ := Option.isSome_iff_exists.mp goesOn
  refine ⟨last, reaches, coherent_of_reached (Manager.reachedBy_of_reached ?_ reaches)⟩
  intro op member manager
  rcases List.mem_pair.mp member with rfl | rfl
  · exact trivial
  · rfl

/-- A cancellation whose only message is not answered is refused with the tree edited: the
candidate pair no longer agrees. -/
theorem incoherent_of_refused_cancel :
    ∃ last ∈ Manager.reached twoLeaves (twoLeavesConfig "old")
        [.makeCandidateConfig (replaceB "new"), .cancelCandidateConfig],
      Manager.ReachedBy twoLeaves Manager.FilesSucceed last ∧ ¬ Coherent twoLeaves last := by
  have incoherent : ∃ last ∈ Manager.reached twoLeaves (twoLeavesConfig "old")
      [.makeCandidateConfig (replaceB "new"), .cancelCandidateConfig],
      ¬ Coherent twoLeaves last := by
    decide +kernel
  obtain ⟨last, reaches, disagrees⟩ := incoherent
  refine ⟨last, reaches, Manager.reachedBy_of_reached ?_ reaches, disagrees⟩
  intro op member manager
  rcases List.mem_pair.mp member with rfl | rfl <;> exact trivial

end FlexConfig.Sample
