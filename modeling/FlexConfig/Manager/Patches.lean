import FlexConfig.Json.Difference
import FlexConfig.Json.Order
import FlexConfig.Manager.Restart

/-! # The patches the manager takes and makes

A candidate is made of those patches that are computed differences, and taken back by one. What
a difference leads to is known, so that the first says which document a taken patch asks for, and
the second that a pending candidate can always be taken back to the running document.
-/

namespace FlexConfig

open Procedure Json

section Canonical

variable {patch running target : Json}

/-- A patch that passes is the computed difference to what it produces. -/
theorem fValidatePatch_eq_ok_false : fValidatePatch patch running = .ok false ↔
    ∃ target, running.patch patch = .ok target ∧ patch = running.diff target := by
  unfold fValidatePatch
  rw [except_bind_eq_ok]
  refine exists_congr fun target => and_congr_right fun _ => ?_
  constructor
  · intro same
    exact not_not.mp (of_decide_eq_false (Except.ok.inj same))
  · intro canonical
    exact congrArg Except.ok (decide_eq_false (not_not.mpr canonical))

/-- The patches that pass are the computed differences to documents in order. -/
theorem fValidatePatch_passes_iff (runningSorted : running.Sorted) (counted : running.Counted)
    (patchSorted : patch.Sorted) :
    fValidatePatch patch running = .ok false ↔
      ∃ target, target.Sorted ∧ patch = running.diff target := by
  rw [fValidatePatch_eq_ok_false]
  constructor
  · intro ⟨target, patched, canonical⟩
    exact ⟨target, runningSorted.patched patchSorted patched, canonical⟩
  · intro ⟨target, targetSorted, canonical⟩
    refine ⟨target, ?_, canonical⟩
    rw [canonical]
    exact patch_diff runningSorted targetSorted counted

end Canonical

section Filling

variable {source target : Json} {item other : DiffItem} {items : List DiffItem}

/-- A computed operation with a value in it: the one it had, or the one its document has at the
location that it removes. -/
def Filled (source : Json) (item other : DiffItem) : Prop :=
  other = item ∧ item.value.isSome ∨
    item.isRemove = true ∧ ∃ tokens value, Pointer.parse item.path = .ok tokens ∧
      source.atPointer tokens = .ok value ∧ other = { item with value := some value }

theorem Filled.carries (filled : Filled source item other) : other.value.isSome := by
  rcases filled with ⟨rfl, carries⟩ | ⟨_, _, _, _, _, rfl⟩
  · exact carries
  · rfl

theorem Filled.plain (filled : Filled source item other) (plain : item.fromPath = none) :
    other.fromPath = none := by
  rcases filled with ⟨rfl, _⟩ | ⟨_, _, _, _, _, rfl⟩ <;> exact plain

/-- A removal does not look at its value. -/
theorem Filled.applyItem (filled : Filled source item other) (json : Json) :
    applyItem other json = applyItem item json := by
  rcases filled with ⟨rfl, _⟩ | ⟨removes, _, _, _, _, rfl⟩
  · rfl
  · have isRemove : item.op = JsonDiffOperation.REMOVE := of_decide_eq_true removes
    simp [Json.applyItem, isRemove, JsonDiffOperation.ADD, JsonDiffOperation.REMOVE]

theorem applyItems_of_filled {others : List DiffItem}
    (filled : List.Forall₂ (Filled source) items others) (json : Json) :
    applyItems others json = applyItems items json := by
  induction filled generalizing json with
  | nil => rfl
  | cons here _ ih =>
      rw [applyItems, applyItems, here.applyItem]
      exact bind_congr fun next => ih next

theorem plain_of_filled {others : List DiffItem}
    (filled : List.Forall₂ (Filled source) items others)
    (plain : ∀ item ∈ items, item.fromPath = none) : ∀ other ∈ others, other.fromPath = none := by
  induction filled with
  | nil => exact fun _ impossible => absurd impossible List.not_mem_nil
  | cons here _ ih =>
      obtain ⟨first, rest⟩ := List.forall_mem_cons.mp plain
      exact List.forall_mem_cons.mpr ⟨here.plain first, ih rest⟩

theorem carries_of_filled {others : List DiffItem}
    (filled : List.Forall₂ (Filled source) items others) :
    ∀ other ∈ others, other.value.isSome := by
  induction filled with
  | nil => exact fun _ impossible => absurd impossible List.not_mem_nil
  | cons here _ ih => exact List.forall_mem_cons.mpr ⟨here.carries, ih⟩

/-- Filling in the values of a computed difference finds them all, and creates nothing. -/
theorem fillRemoved_computed (sorted : source.Sorted)
    (computed : ∀ item ∈ items, Computed source target [] item) :
    ∃ others, Manager.fillRemoved items source = .ok (others, source) ∧
      List.Forall₂ (Filled source) items others := by
  induction items with
  | nil => exact ⟨[], rfl, .nil⟩
  | cons item rest ih =>
      obtain ⟨here, later⟩ := List.forall_mem_cons.mp computed
      obtain ⟨others, filled, each⟩ := ih later
      cases here with
      | replaces | adds =>
          exact ⟨_ :: others, except_bind_eq_ok.mpr ⟨(others, source), filled, rfl⟩,
            .cons (.inl ⟨rfl, rfl⟩) each⟩
      | removes parsed present =>
          obtain ⟨stays, points⟩ := touched_of_atPointer sorted present
          refine ⟨_ :: others, ?_, .cons (.inr ⟨rfl, _, _, parsed, present, rfl⟩) each⟩
          exact except_bind_eq_ok.mpr ⟨_, parsed, except_bind_eq_ok.mpr ⟨source, stays,
            except_bind_eq_ok.mpr ⟨_, points, except_bind_eq_ok.mpr ⟨(others, source), filled,
              rfl⟩⟩⟩⟩

end Filling

section Created

variable {env : Env} {property : Json → Prop}

/-- Nothing that creates locations in a document takes a property from it. -/
def KeptByCreation (property : Json → Prop) : Prop :=
  ∀ ⦃json after tokens⦄, property json → json.touched tokens = .ok after → property after

variable (kept : KeptByCreation property)
include kept

theorem KeptByCreation.fillValue {item : DiffItem} {json after : Json} (holds : property json)
    (filled : fillValue item json = .ok after) : property after := by
  unfold FlexConfig.fillValue at filled
  split at filled
  · cases filled
    exact holds
  · obtain ⟨pointer, _, filled⟩ := except_bind_eq_ok.mp filled
    split at filled
    · exact kept holds filled
    · cases filled
      exact holds

theorem KeptByCreation.scanRemovals {node_config : Node} {items : List DiffItem}
    {scan after : Scan} (holds : property scan.jsonConfig)
    (scanned : scanRemovals node_config items scan = .ok after) : property after.jsonConfig := by
  induction items generalizing scan with
  | nil =>
      cases scanned
      exact holds
  | cons item rest ih =>
      obtain ⟨filled, lookedUp, scanned⟩ := except_bind_eq_ok.mp scanned
      have stillHolds := kept.fillValue holds lookedUp
      split at scanned
      · exact ih stillHolds scanned
      split at scanned
      · cases scanned
      split at scanned
      · cases scanned
      · exact ih stillHolds scanned

theorem KeptByCreation.loadItem {item : DiffItem} {json after : Json} {before loaded : Node}
    (holds : property json) (done : loadItem env item json before = .ok after loaded) :
    property after := by
  unfold FlexConfig.loadItem at done
  dsimp only at done
  split at done
  · cases done
  obtain ⟨jschema, middle, _, located⟩ := bind_eq_ok.mp done
  rw [get_bind] at located
  split at located
  · cases located
  cases selected : XPath.select middle (XPath.mergeTokens (XPath.parse item.path).dropLast) with
  | none =>
      simp only [selected] at located
      cases located
  | some root_node =>
      simp only [selected] at located
      cases loader : subnodeLoader env jschema with
      | none =>
          simp only [loader] at located
          cases located
          exact holds
      | some load =>
          simp only [loader] at located
          obtain ⟨pointer, _, _, located⟩ := bind_eq_ok.mp located
          obtain ⟨created, _, attempted, located⟩ := bind_eq_ok.mp located
          obtain ⟨jnode, _, _, located⟩ := bind_eq_ok.mp located
          obtain ⟨_, _, _, finished⟩ := bind_eq_ok.mp located
          cases finished
          exact kept holds (attempt_eq_ok.mp attempted).1

theorem KeptByCreation.loadAdded {items : List DiffItem} {json after : Json}
    {before loaded : Node} (holds : property json)
    (done : loadAdded env items json before = .ok after loaded) : property after := by
  induction items generalizing json before with
  | nil =>
      cases done
      exact holds
  | cons item rest ih =>
      rw [FlexConfig.loadAdded] at done
      obtain ⟨filled, _, attempted, done⟩ := bind_eq_ok.mp done
      have stillHolds := kept.fillValue holds (attempt_eq_ok.mp attempted).1
      split at done
      · exact ih stillHolds done
      · obtain ⟨next, _, loadedItem, done⟩ := bind_eq_ok.mp done
        exact ih (kept.loadItem stillHolds loadedItem) done

/-- The document a routine returns has what the patched document has. -/
theorem KeptByCreation.course {site : Site} {patch jconfig : Json} {before : Draft}
    (course : Course env site patch jconfig before)
    (patched : ∀ json, jconfig.patch patch = .ok json → property json) :
    property course.json_config := by
  obtain ⟨json, applied, planned⟩ := except_bind_eq_ok.mp course.begun.planned
  obtain ⟨result, produced, validated⟩ := except_bind_eq_ok.mp applied
  obtain ⟨jschema, _, validated⟩ := except_bind_eq_ok.mp validated
  split at validated
  swap
  · cases validated
  cases validated
  obtain ⟨_, _, planned⟩ := except_bind_eq_ok.mp planned
  obtain ⟨scan, scanned, planned⟩ := except_bind_eq_ok.mp planned
  have removal : property course.removal.jsonConfig := by
    dsimp only at planned
    split at planned
    · obtain ⟨ordered, _, planned⟩ := except_bind_eq_ok.mp planned
      obtain ⟨_, _, finished⟩ := except_bind_eq_ok.mp planned
      rw [← Except.ok.inj finished]
      exact kept.scanRemovals (patched _ produced) scanned
    · cases planned
  obtain ⟨_, _, _, loaded⟩ := bind_eq_ok.mp course.prepared.edits
  exact kept.loadAdded removal loaded

end Created

section Order

variable {env : Env} {before after : Manager}

/-- The documents of the manager are in order. -/
structure InOrder (manager : Manager) : Prop where
  running : manager.runningJson.Sorted
  candidate : manager.candidateJson.Sorted

/-- A patch that a client sends is in order. -/
def PatchInOrder (_ : Manager) : Manager.Op → Prop
  | .makeCandidateConfig patch => patch.Sorted
  | .applyCandidateConfig _ => True
  | .cancelCandidateConfig => True

theorem null_sorted : Json.null.Sorted := trivial

theorem inOrder_of_make {patch : Json} (inOrder : InOrder before) (sorted : patch.Sorted)
    (made : Manager.makeCandidateConfig env patch before = .ok ⟨⟩ after) : InOrder after := by
  obtain ⟨making, rfl⟩ := Manager.Making.make_eq_ok_iff.mp made
  have kept : KeptByCreation Json.Sorted := fun _ _ _ sorted created => sorted.touched created
  exact ⟨inOrder.running, kept.course making.course fun json patched =>
    inOrder.running.patched sorted patched⟩

theorem inOrder_of_step {op : Manager.Op} (inOrder : InOrder before)
    (patch : PatchInOrder before op) (step : Manager.Step env before op after) :
    InOrder after := by
  obtain ⟨_, rfl⟩ := step
  cases op with
  | makeCandidateConfig sent =>
      change InOrder (final (Manager.makeCandidateConfig env sent before))
      cases made : Manager.makeCandidateConfig env sent before with
      | ok _ next => exact inOrder_of_make inOrder patch made
      | error reason next =>
          rcases Manager.make_eq_error made with rfl | ⟨_, draft, _, rfl, _⟩
          · exact inOrder
          · exact ⟨inOrder.running, inOrder.candidate⟩
  | applyCandidateConfig files =>
      change InOrder (final (Manager.applyCandidateConfig files before))
      rcases Manager.apply_cases files before with ⟨reason, halted⟩ | ⟨_, _, applied⟩
      · rw [halted]
        exact inOrder
      · rw [applied]
        exact ⟨inOrder.candidate, null_sorted⟩
  | cancelCandidateConfig =>
      change InOrder (final (Manager.cancelCandidateConfig env before))
      by_cases cancellable : ∃ patch jconfig tree,
          Manager.Cancellable env before patch jconfig tree
      · obtain ⟨patch, jconfig, tree, cancellable⟩ := cancellable
        rw [Manager.cancel_of_cancellable cancellable]
        cases fMakeCandidateConfigInternal env before.site patch jconfig
            (before.runningDraft tree) with
        | ok json_config draft => exact ⟨inOrder.running, null_sorted⟩
        | error reason draft => cases reason <;> exact ⟨inOrder.running, inOrder.candidate⟩
      · obtain ⟨reason, halted⟩ := Manager.cancel_of_not_cancellable cancellable
        rw [halted]
        exact inOrder

end Order

section Rollback

variable {env : Env} {last : Manager}

/-- A state that calls have led to whose patches are in order, since a load of a document that
is. -/
def Manager.ReachedInOrder (env : Env) (last : Manager) : Prop :=
  ∃ first, Manager.Loaded env first ∧ first.runningJson.Sorted ∧
    Relation.ReflTransGen (Guarded (Manager.Step env) PatchInOrder) first last

theorem inOrder_of_loaded (loaded : Manager.Loaded env last) (sorted : last.runningJson.Sorted) :
    InOrder last := by
  obtain ⟨jconfig, log, loaded⟩ := loaded
  obtain ⟨reloaded, reload, rfl⟩ := Manager.loaded_eq loaded
  exact ⟨sorted, null_sorted⟩

theorem inOrder_of_reached (reached : Manager.ReachedInOrder env last) : InOrder last := by
  obtain ⟨first, loaded, sorted, run⟩ := reached
  exact invariant_of_run InOrder (fun _ _ _ inOrder patch step =>
    inOrder_of_step inOrder patch step) (inOrder_of_loaded loaded sorted) run

theorem reachedInOrder_of_reached {jconfig : Json} {ops : List Manager.Op}
    (sorted : jconfig.Sorted) (patches : ∀ op ∈ ops, ∀ manager, PatchInOrder manager op)
    (reaches : Manager.reached env jconfig ops = some last) : Manager.ReachedInOrder env last := by
  unfold Manager.reached at reaches
  split at reaches
  · next loaded log returned =>
      obtain ⟨reloaded, _, rfl⟩ := Manager.loaded_eq returned
      exact ⟨_, ⟨jconfig, log, returned⟩, sorted, Manager.run_of_afterCalls patches reaches⟩
  · cases reaches

/-- The patch that a cancellation computes takes the candidate's document back to the running
one. -/
theorem rollbackPatch_eq (restartable : Restartable env last) (inOrder : InOrder last)
    (ready : last.isCandidateConfigReady = true) (counted : last.candidateJson.Counted) :
    ∃ others, Manager.rollbackPatch env last =
        .ok (.array (others.map DiffItem.toJson), last.candidateJson) ∧
      List.Forall₂ (Filled last.candidateJson)
        (diffItems last.candidateJson last.runningJson []) others ∧
      patchConfig env (.array (others.map DiffItem.toJson)) last.candidateJson =
        .ok last.runningJson := by
  obtain ⟨_, candidate, running, _⟩ := restartable.pending ready
  obtain ⟨reloaded, reload⟩ := restartable.running
  obtain ⟨jschema, _, schema, valid, _⟩ := Manager.reload_eq_ok.mp reload
  have computed : ∀ item ∈ diffItems last.candidateJson last.runningJson [],
      Computed last.candidateJson last.runningJson [] item :=
    computed_diffItems _ _ inOrder.candidate inOrder.running counted rfl
  obtain ⟨others, filled, each⟩ := fillRemoved_computed inOrder.candidate computed
  have storedCandidate : storedJson last.candidateJson = .ok last.candidateJson :=
    if_neg candidate
  have storedRunning : storedJson last.runningJson = .ok last.runningJson := if_neg running
  have takesBack : last.candidateJson.patch (last.candidateJson.diff last.runningJson) =
      .ok last.runningJson := patch_diff inOrder.candidate inOrder.running counted
  refine ⟨others, ?_, each, ?_⟩
  · refine except_bind_eq_ok.mpr ⟨_, storedCandidate, except_bind_eq_ok.mpr ⟨_, storedRunning,
      except_bind_eq_ok.mpr ⟨_, takesBack, except_bind_eq_ok.mpr ⟨jschema, schema, ?_⟩⟩⟩⟩
    rw [if_pos valid]
    exact except_bind_eq_ok.mpr ⟨_, filled, rfl⟩
  · have plain := plain_of_filled each fun item member => (computed item member).plain
    have reads : (Json.array (others.map DiffItem.toJson)).patchItems = .ok others :=
      mapM_ofJson_toJson plain
    have patched : last.candidateJson.patch (.array (others.map DiffItem.toJson)) =
        .ok last.runningJson := by
      rw [patch, reads]
      refine (applyItems_of_filled each _).trans ?_
      exact applyItems_diffItems inOrder.candidate inOrder.running counted
    refine except_bind_eq_ok.mpr ⟨_, patched, except_bind_eq_ok.mpr ⟨jschema, schema, ?_⟩⟩
    rw [if_pos valid]
    rfl

/-- Wherever calls with documents in order have led to, a cancellation of the pending candidate
gets as far as its routine, with a patch that has a value in every operation and takes the
candidate's document back to the running one. -/
theorem Manager.cancellable_of_reached (reached : Manager.ReachedInOrder env last)
    (ready : last.isCandidateConfigReady = true) (counted : last.candidateJson.Counted) :
    ∃ others tree,
      Manager.Cancellable env last (.array (others.map DiffItem.toJson)) last.candidateJson tree ∧
      List.Forall₂ (Filled last.candidateJson)
        (diffItems last.candidateJson last.runningJson []) others ∧
      (∀ other ∈ others, other.value.isSome) ∧
      patchConfig env (.array (others.map DiffItem.toJson)) last.candidateJson =
        .ok last.runningJson := by
  have inOrder := inOrder_of_reached reached
  obtain ⟨first, loaded, _, run⟩ := reached
  have restartable : Restartable env last :=
    invariant_of_run (Restartable env) (fun _ _ _ restartable _ step =>
      restartable_of_step restartable step) (restartable_of_loaded loaded) run
  obtain ⟨others, rollback, each, takesBack⟩ := rollbackPatch_eq restartable inOrder ready counted
  obtain ⟨tree, candidate⟩ := Option.isSome_iff_exists.mp (restartable.pending ready).2.2.2
  exact ⟨others, tree, ⟨ready, rollback, candidate⟩, each, carries_of_filled each, takesBack⟩

end Rollback

end FlexConfig

namespace FlexConfig.Sample

theorem twoLeavesConfig_sorted : (twoLeavesConfig "old").Sorted :=
  ⟨by decide, ⟨by decide, trivial, trivial, trivial⟩, trivial⟩

theorem twoLeavesConfig_counted : (twoLeavesConfig "old").Counted :=
  ⟨⟨trivial, trivial, trivial⟩, trivial⟩

theorem replaceB_sorted : (replaceB "new").Sorted :=
  ⟨⟨by decide, trivial, trivial, trivial, trivial⟩, trivial⟩

/-- A replacement passes, and is the difference to the document with the new value. -/
theorem fValidatePatch_passes_replaced :
    ∃ target, target.Sorted ∧ replaceB "new" = (twoLeavesConfig "old").diff target := by
  have passes : fValidatePatch (replaceB "new") (twoLeavesConfig "old") = .ok false := by
    decide +kernel
  exact (fValidatePatch_passes_iff twoLeavesConfig_sorted twoLeavesConfig_counted
    replaceB_sorted).mp passes

/-- A leaf of the running configuration is gone from the candidate, and a cancellation adds it
again. -/
theorem cancellable_of_reached_removed :
    ∃ last ∈ Manager.reached twoLeaves (twoLeavesConfig "old")
        [.makeCandidateConfig (.array [operation "remove" "/a/c" none])],
      last.candidateJson ≠ last.runningJson ∧
      ∃ patch tree, Manager.Cancellable twoLeaves last patch last.candidateJson tree ∧
        patchConfig twoLeaves patch last.candidateJson = .ok (twoLeavesConfig "old") := by
  have pending : ∃ last ∈ Manager.reached twoLeaves (twoLeavesConfig "old")
      [.makeCandidateConfig (.array [operation "remove" "/a/c" none])],
      last.isCandidateConfigReady = true ∧ last.runningJson = twoLeavesConfig "old" ∧
        last.candidateJson = object [("a", object [("b", text "old")])] := by
    decide +kernel
  obtain ⟨last, reaches, ready, running, candidate⟩ := pending
  have counted : last.candidateJson.Counted := by
    rw [candidate]
    exact ⟨⟨trivial, trivial⟩, trivial⟩
  have reached : Manager.ReachedInOrder twoLeaves last := by
    refine reachedInOrder_of_reached twoLeavesConfig_sorted ?_ reaches
    intro op member manager
    cases List.mem_singleton.mp member
    exact ⟨⟨by decide, trivial, trivial, trivial⟩, trivial⟩
  obtain ⟨others, tree, cancellable, _, _, takesBack⟩ :=
    Manager.cancellable_of_reached reached ready counted
  rw [running] at takesBack
  refine ⟨last, reaches, ?_, _, tree, cancellable, takesBack⟩
  rw [candidate, running]
  decide

end FlexConfig.Sample
