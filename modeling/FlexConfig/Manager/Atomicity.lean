import FlexConfig.Manager.Progress

/-! # What a refused call leaves behind

A call that answers `false` is meant to leave the manager as it was. The reference
index is written before the last exit of the routine, and a cancellation edits the
candidate tree in place, so each of the two holds under a condition on where the
routine is refused.
-/

namespace FlexConfig

open Procedure

/-- Nothing but the messages sent differs. -/
def SameConfiguration (before after : Manager) : Prop :=
  after = { before with posts := after.posts }

instance (before after : Manager) : Decidable (SameConfiguration before after) :=
  inferInstanceAs (Decidable (after = _))

section Make

/-- The routine gets as far as saving an index. -/
def Saves (env : Env) (site : Site) (items : List DiffItem) (removal : Removal) (before : Draft)
    (saved : References) : Prop :=
  ∃ log json_config edited ordered,
    postDeletions env site [] removal.ordered before.posts = .ok ⟨⟩ log ∧
      Prepared env items removal { before with posts := log } json_config edited ordered saved

variable {env : Env} {site : Site} {patch jconfig : Json} {before after : Draft}
  {items : List DiffItem} {removal : Removal} {index saved : References}

/-- A routine that halts once it has begun leaves the index it has saved, or the one without
the removed nodes where it has saved none. -/
theorem routine_error_references {reason : Halt}
    (begun : Begun env patch jconfig before items removal index)
    (halted : fMakeCandidateConfigInternal env site patch jconfig before = .error reason after) :
    Saves env site items removal { before with references := index } after.references ∨
      ((¬ ∃ saved, Saves env site items removal { before with references := index } saved) ∧
        after.references = index) := by
  rcases routine_eq_error begun halted with ⟨log, unanswered, rfl⟩ |
    ⟨log, cause, between, posted, updated, ending⟩
  · refine Or.inr ⟨?_, rfl⟩
    rintro ⟨saved, log', json, edited, ordered, posted, _⟩
    rw [unanswered] at posted
    cases posted
  have same : after.references = between.references := by
    rcases ending with ⟨_, _, rfl⟩ | ⟨_, rest, rfl, _⟩ <;> rfl
  rw [same]
  rcases performUpdate_eq_error.mp updated with ⟨edited, edits, rfl⟩ |
    ⟨json, edited, edits, refused, rfl⟩ | ⟨json, edited, ordered, saved, rest, prepared, _, rfl⟩
  · refine Or.inr ⟨?_, rfl⟩
    rintro ⟨saved, log', json, edited', ordered, posted', prepared⟩
    have impossible := edits.symm.trans prepared.edits
    cases impossible
  · refine Or.inr ⟨?_, rfl⟩
    rintro ⟨saved, log', json', edited', ordered, posted', prepared⟩
    have edits' := edits.symm.trans prepared.edits
    cases edits'
    have impossible := refused.symm.trans prepared.planned
    cases impossible
  · exact Or.inl ⟨log, json, edited, ordered, posted, prepared⟩

theorem routine_ok_references {json_config : Json}
    (begun : Begun env patch jconfig before items removal index)
    (returned : fMakeCandidateConfigInternal env site patch jconfig before =
      .ok json_config after) :
    Saves env site items removal { before with references := index } after.references := by
  obtain ⟨items', removal', index', log, begun', posted, updated⟩ := routine_eq_ok.mp returned
  have parsed := begun.parsed.symm.trans begun'.parsed
  cases parsed
  have planned := begun.planned.symm.trans begun'.planned
  cases planned
  have unreferenced := begun.unreferenced.symm.trans begun'.unreferenced
  cases unreferenced
  obtain ⟨edited, ordered, saved, rest, prepared, _, rfl⟩ := performUpdate_eq_ok.mp updated
  exact ⟨log, json_config, edited, ordered, posted, prepared⟩

end Make

section Index

/-- An index is the same once the removed nodes have left it and the updated ones are recorded:
what is recorded was there, and what was there of a removed node is recorded again. -/
structure IndexRestored (env : Env) (items : List DiffItem) (source target : Node)
    (index : References) : Prop where
  records : ∀ xpath ∈ updatedNodes env items target, ∀ reference ∈ recorded env target xpath,
    xpath ∈ index.sources reference
  restores : ∀ entry ∈ index, ∀ referrer ∈ entry.2, IsRemoved env items source referrer →
    IsUpdated env items target referrer ∧ entry.1 ∈ recorded env target referrer

/-- No removed node refers to another one. -/
def IndexSpared (env : Env) (items : List DiffItem) (source : Node) (index : References) : Prop :=
  ∀ entry ∈ index, ∀ referrer ∈ entry.2, ¬ IsRemoved env items source referrer

instance (env : Env) (items : List DiffItem) (source target : Node) (index : References) :
    Decidable (IndexRestored env items source target index) :=
  decidable_of_iff (_ ∧ _) ⟨fun ⟨records, restores⟩ => ⟨records, restores⟩,
    fun ⟨records, restores⟩ => ⟨records, restores⟩⟩

instance (env : Env) (items : List DiffItem) (source : Node) (index : References) :
    Decidable (IndexSpared env items source index) := inferInstanceAs (Decidable (∀ _ ∈ _, _))

variable {env : Env} {site : Site} {patch jconfig document : Json} {before : Draft}
  {items : List DiffItem} {removal : Removal} {index saved : References} {target : Node}

/-- An index is saved where the routine comes to the edit and the update passes. -/
theorem exists_saves_iff
    (leads : Leads env patch jconfig before.nodeConfig items document target)
    (ordered : before.nodeConfig.Ordered)
    (begun : Begun env patch jconfig before items removal index) :
    (∃ saved, Saves env site items removal { before with references := index } saved) ↔
      UpdateBegins env site patch jconfig items before ∧ UpdatesPass env items target := by
  obtain ⟨_, edits⟩ := leads.prepared ordered begun
  rw [updateBegins_iff begun]
  constructor
  · rintro ⟨saved, log, json_config, edited, listed, posted, prepared⟩
    cases edits.symm.trans prepared.edits
    exact ⟨⟨log, posted⟩, (exists_planUpdate_eq_ok_iff _).mp ⟨_, prepared.planned⟩⟩
  · rintro ⟨⟨log, posted⟩, passes⟩
    obtain ⟨plan, planned⟩ := (exists_planUpdate_eq_ok_iff index).mpr passes
    exact ⟨plan.2, log, document, target, plan.1, posted, edits, planned⟩

/-- What is saved is the index there was exactly where it is restored. -/
theorem saves_eq_iff (canonical : before.references.Canonical)
    (leads : Leads env patch jconfig before.nodeConfig items document target)
    (ordered : before.nodeConfig.Ordered)
    (begun : Begun env patch jconfig before items removal index)
    (saves : Saves env site items removal { before with references := index } saved) :
    saved = before.references ↔
      IndexRestored env items before.nodeConfig target before.references := by
  obtain ⟨_, edits⟩ := leads.prepared ordered begun
  obtain ⟨log, json_config, edited, listed, _, prepared⟩ := saves
  cases edits.symm.trans prepared.edits
  obtain ⟨_, _, _, _, recordsAll⟩ := prepared_ordered prepared
  obtain ⟨_, spec⟩ := saveXPathReference_spec recordsAll
  obtain ⟨_, dropped⟩ := removeXPathReference_eq_ok.mp begun.unreferenced
  have updated {xpath : Str} : xpath ∈ listed ↔ IsUpdated env items target xpath :=
    mem_ordered_iff prepared
  have removed {xpath : Str} : xpath ∈ removal.ordered ↔
      IsRemoved env items before.nodeConfig xpath := mem_removal_iff begun.planned begun.parsed
  have sources (source reference : Str) : source ∈ saved.sources reference ↔
      (IsUpdated env items target source ∧ reference ∈ recorded env target source) ∨
        (source ∈ before.references.sources reference ∧
          ¬ IsRemoved env items before.nodeConfig source) := by
    rw [spec, updated, dropped, References.mem_sources_dropSources, removed]
  constructor
  · rintro rfl
    refine ⟨fun xpath member reference refers => ?_, fun entry listed referrer member gone => ?_⟩
    · exact (sources xpath reference).mpr (.inl ⟨mem_updatedNodes.mp member, refers⟩)
    · have here := canonical.mem_sources_iff.mpr ⟨entry, listed, rfl, member⟩
      rcases (sources referrer entry.1).mp here with again | ⟨_, stays⟩
      · exact again
      · exact absurd gone stays
  · rintro ⟨records, restores⟩
    have was (xpath reference : Str) (isUpdated : IsUpdated env items target xpath)
        (refers : reference ∈ recorded env target xpath) :
        xpath ∈ before.references.sources reference :=
      records xpath (mem_updatedNodes.mpr isUpdated) reference refers
    refine ((canonical.remove begun.unreferenced).save recordsAll).ext canonical
      (fun reference => ?_) fun source reference => ?_
    · have keys : Keyed.keys index = Keyed.keys before.references := by
        rw [dropped]
        exact List.map_map ..
      rw [mem_keys_save recordsAll, keys]
      refine or_iff_right_of_imp ?_
      rintro ⟨xpath, member, refers⟩
      obtain ⟨entry, listed, rfl, _⟩ :=
        canonical.mem_sources_iff.mp (was xpath reference (updated.mp member) refers)
      exact List.mem_map_of_mem listed
    · rw [sources]
      constructor
      · rintro (⟨isUpdated, refers⟩ | ⟨here, _⟩)
        · exact was source reference isUpdated refers
        · exact here
      · intro here
        by_cases gone : IsRemoved env items before.nodeConfig source
        · obtain ⟨entry, listed, rfl, member⟩ := canonical.mem_sources_iff.mp here
          exact .inl (restores entry listed source member gone)
        · exact .inr ⟨here, gone⟩

/-- Taking the removed nodes out leaves the index alone exactly where none of them refers to
another node. -/
theorem removes_eq_iff (begun : Begun env patch jconfig before items removal index) :
    index = before.references ↔ IndexSpared env items before.nodeConfig before.references := by
  obtain ⟨_, dropped⟩ := removeXPathReference_eq_ok.mp begun.unreferenced
  rw [dropped, dropSources_eq_self_iff]
  simp only [mem_removal_iff begun.planned begun.parsed]
  exact Iff.rfl

end Index

namespace Manager

variable {env : Env} {manager : Manager} {patch : Json}

/-- Where the routine has begun, a patch that is not accepted leaves the index it has saved, or
the one without the removed nodes. -/
theorem make_halted_references {root : Node} {items : List DiffItem} {removal : Removal}
    {index : References} {after : Manager} {reason : Halt}
    (admitted : Admitted env manager patch root)
    (begun : Begun env patch manager.runningJson (manager.runningDraft root) items removal index)
    (halted : makeCandidateConfig env patch manager = .error reason after) :
    Saves env manager.site items removal { manager.runningDraft root with references := index }
        after.candidateReferences ∨
      ((¬ ∃ saved, Saves env manager.site items removal
          { manager.runningDraft root with references := index } saved) ∧
        after.candidateReferences = index) := by
  rw [make_of_admitted admitted] at halted
  split at halted
  · next draft ran =>
      cases halted
      exact routine_error_references begun ran
  · next json_config draft ran =>
      split at halted
      · cases halted
        exact Or.inl (routine_ok_references begun ran)
      · cases halted

/-- A call that makes a candidate, and comes to the edit, follows its patch. -/
def MakeFollows (env : Env) (manager : Manager) (patch : Json) : Prop :=
  ∀ root, Admitted env manager patch root →
    Follows env manager.site patch manager.runningJson (manager.runningDraft root)

/-- The update of a patch passes in the tree that it leads to. -/
def MakePasses (env : Env) (manager : Manager) (patch : Json) (root : Node)
    (items : List DiffItem) (target : Node) : Prop :=
  UpdateBegins env manager.site patch manager.runningJson items (manager.runningDraft root) ∧
    (∃ document, Leads env patch manager.runningJson root items document target) ∧
    UpdatesPass env items target

/-- When a patch that is not accepted leaves the index as it was: where the update passes in the
tree that the patch leads to, what is recorded for it brings back what the removal took out;
elsewhere, once the removal has passed, it takes nothing out. -/
def RefusalKeepsIndex (env : Env) (manager : Manager) (patch : Json) : Prop :=
  ∀ root items, Admitted env manager patch root →
    RemovalPasses env patch manager.runningJson items root manager.candidateReferences →
      (∀ target, MakePasses env manager patch root items target →
        IndexRestored env items root target manager.candidateReferences) ∧
      ((¬ ∃ target, MakePasses env manager patch root items target) →
        IndexSpared env items root manager.candidateReferences)

/-- What a refusal keeps is told for the one tree that is admitted. -/
theorem refusalKeepsIndex_of {root : Node} {items : List DiffItem}
    (admitted : Admitted env manager patch root) (parsed : patch.patchItems = .ok items)
    (restored : ∀ target, MakePasses env manager patch root items target →
      IndexRestored env items root target manager.candidateReferences)
    (spared : (¬ ∃ target, MakePasses env manager patch root items target) →
      IndexSpared env items root manager.candidateReferences) :
    RefusalKeepsIndex env manager patch := by
  intro root' items' admitted' passes
  obtain ⟨tree, running, rfl⟩ := admitted.running
  obtain ⟨tree', running', rfl⟩ := admitted'.running
  cases running.symm.trans running'
  cases parsed.symm.trans passes.parsed
  exact ⟨restored, spared⟩

/-- A patch that leads to a tree is followed. -/
theorem makeFollows_of_leads {root target : Node} {items : List DiffItem} {document : Json}
    (admitted : Admitted env manager patch root)
    (leads : Leads env patch manager.runningJson root items document target) :
    MakeFollows env manager patch := by
  intro root' admitted' items' begins
  obtain ⟨tree, running, rfl⟩ := admitted.running
  obtain ⟨tree', running', rfl⟩ := admitted'.running
  cases running.symm.trans running'
  cases leads.parsed.symm.trans begins.passes.parsed
  exact ⟨document, target, leads⟩

/-- The index is kept where the update passes in the tree that the patch leads to, and brings back
what the removal takes out. -/
theorem refusalKeepsIndex_of_restored {root target : Node} {items : List DiffItem}
    (maps : MapsOrdered manager) (admitted : Admitted env manager patch root)
    (passes : MakePasses env manager patch root items target)
    (restored : IndexRestored env items root target manager.candidateReferences) :
    RefusalKeepsIndex env manager patch := by
  obtain ⟨removal, index, _, begun, _⟩ := passes.1.begun
  obtain ⟨document, leads⟩ := passes.2.1
  refine refusalKeepsIndex_of admitted leads.parsed (fun other passesOther => ?_) fun none =>
    absurd ⟨target, passes⟩ none
  obtain ⟨_, ⟨_, leads'⟩, _⟩ := passesOther
  have ordered : (manager.runningDraft root).nodeConfig.Ordered := maps.root admitted
  obtain ⟨_, rfl⟩ := leads.unique leads' ordered begun
  exact restored

/-- The index that a patch leaves that is not accepted is the one there was exactly when its
refusal keeps the index. -/
theorem make_halted_references_iff {after : Manager} {reason : Halt} (maps : MapsOrdered manager)
    (follows : MakeFollows env manager patch)
    (halted : makeCandidateConfig env patch manager = .error reason after) :
    after.candidateReferences = manager.candidateReferences ↔
      RefusalKeepsIndex env manager patch := by
  by_cases begins : ∃ root items removal index, Admitted env manager patch root ∧
      Begun env patch manager.runningJson (manager.runningDraft root) items removal index
  · obtain ⟨root, items, removal, index, admitted, begun⟩ := begins
    have ordered : (manager.runningDraft root).nodeConfig.Ordered := maps.root admitted
    have spared : index = manager.candidateReferences ↔ _ := removes_eq_iff begun
    have passes : RemovalPasses env patch manager.runningJson items root
      manager.candidateReferences := begun_iff.mp ⟨removal, index, begun⟩
    rcases make_halted_references admitted begun halted with saves | ⟨unsaved, kept⟩
    · obtain ⟨log, _, _, _, posted, _⟩ := id saves
      have begins := (updateBegins_iff begun).mpr ⟨log, posted⟩
      obtain ⟨document, target, leads⟩ := follows root admitted items begins
      obtain ⟨_, updates⟩ := (exists_saves_iff leads ordered begun).mp ⟨_, saves⟩
      have restored := saves_eq_iff maps.references leads ordered begun saves
      have whole : MakePasses env manager patch root items target :=
        ⟨begins, ⟨document, leads⟩, updates⟩
      refine restored.trans ⟨fun same => refusalKeepsIndex_of admitted begun.parsed
        (fun other passesOther => ?_) fun none => absurd ⟨target, whole⟩ none,
        fun keeps => (keeps root items admitted passes).1 target whole⟩
      obtain ⟨_, ⟨document', leads'⟩, _⟩ := passesOther
      obtain ⟨_, rfl⟩ := leads.unique leads' ordered begun
      exact same
    · rw [kept, spared]
      have none : ¬ ∃ target, MakePasses env manager patch root items target := by
        rintro ⟨target, begins, ⟨document, leads⟩, updates⟩
        exact unsaved ((exists_saves_iff leads ordered begun).mpr ⟨begins, updates⟩)
      exact ⟨fun same => refusalKeepsIndex_of admitted begun.parsed
        (fun target passesOther => absurd ⟨target, passesOther⟩ none) fun _ => same,
        fun keeps => (keeps root items admitted passes).2 none⟩
  · refine iff_of_true ?_ fun root items admitted passes => ?_
    · rcases make_eq_error halted with rfl | ⟨root, draft, admitted, rfl, _⟩
      · rfl
      · rcases begun_or_unwritten env manager.site patch manager.runningJson
          (manager.runningDraft root) with ⟨_, unwritten⟩ | ⟨items, removal, index, begun⟩
        · rw [make_of_admitted admitted, unwritten] at halted
          exact (congrArg (fun result => (final result).candidateReferences) halted).symm
        · exact absurd ⟨root, items, removal, index, admitted, begun⟩ begins
    · obtain ⟨removal, index, begun⟩ : ∃ removal index, Begun env patch manager.runningJson
        (manager.runningDraft root) items removal index := begun_iff.mpr passes
      exact absurd ⟨root, items, removal, index, admitted, begun⟩ begins

/-- A patch that is not accepted changes at most the index. -/
theorem make_halted_unchanged_iff {after : Manager} {reason : Halt} (maps : MapsOrdered manager)
    (follows : MakeFollows env manager patch)
    (halted : makeCandidateConfig env patch manager = .error reason after) :
    SameConfiguration manager after ↔ RefusalKeepsIndex env manager patch := by
  rw [← make_halted_references_iff maps follows halted]
  refine ⟨fun same => by rw [same], fun references => ?_⟩
  rcases make_eq_error halted with rfl | ⟨root, draft, _, rfl, _⟩
  · rfl
  · have same : draft.references = manager.candidateReferences := references
    unfold SameConfiguration keep
    rw [same]

/-- A cancellation whose routine stops with the candidate tree edited. -/
def CancelStopsEdited (env : Env) (manager : Manager) : Prop :=
  ∃ patch jconfig tree, Cancellable env manager patch jconfig tree ∧
    StopsEdited env manager.site patch jconfig (manager.runningDraft tree)

/-- A cancellation that comes to the edit follows its patch. -/
def CancelFollows (env : Env) (manager : Manager) : Prop :=
  ∀ patch jconfig tree, Cancellable env manager patch jconfig tree →
    Follows env manager.site patch jconfig (manager.runningDraft tree)

/-- A refused cancellation leaves the manager as it was, and what is applied next is the
candidate that was pending. -/
def RefusedCancelKeepsCandidate (env : Env) (manager : Manager) : Prop :=
  ∀ after, cancelCandidateConfig env manager = .error .rejected after →
    SameConfiguration manager after ∧
      ∀ files committed, applyCandidateConfig files after = .ok ⟨⟩ committed →
        committed.runningConfig = manager.candidateConfig ∧
          committed.runningJson = manager.candidateJson

/-- A refused cancellation that follows its patch, and does not stop with the candidate tree edited,
changes nothing. -/
theorem cancel_rejected_unchanged {after : Manager} (maps : MapsOrdered manager)
    (follows : CancelFollows env manager) (unedited : ¬ CancelStopsEdited env manager)
    (refused : cancelCandidateConfig env manager = .error .rejected after) :
    SameConfiguration manager after := by
  by_cases cancellable : ∃ patch jconfig tree, Cancellable env manager patch jconfig tree
  · obtain ⟨patch, jconfig, tree, cancellable⟩ := cancellable
    rw [cancel_of_cancellable cancellable] at refused
    split at refused
    · cases refused
    · next draft ran =>
        have kept := (routine_error_keeps_tree_iff ran).mpr fun edited =>
          unedited ⟨patch, jconfig, tree, cancellable, (haltsEdited_iff
            (follows patch jconfig tree cancellable)
              (maps.candidate tree cancellable.candidate) ran).mp edited⟩
        cases refused
        unfold SameConfiguration keepEdited keep
        rw [kept, cancellable.candidate]
        rfl
    · next reason draft other ran =>
        cases refused
        exact (other rfl).elim
  · obtain ⟨reason, unchanged⟩ := cancel_of_not_cancellable cancellable
    rw [unchanged] at refused
    cases refused
    rfl

end Manager

end FlexConfig

namespace FlexConfig.Sample

open Procedure

/-- A link that refers to the port of its name, and whose deletion is posted; the second
message is not answered. -/
def portAndLink : Env :=
  deployment (container [("link", container [("p", object [
    ("action", object [("on-delete-path", text "/delete"), ("on-update-path", text "/update"),
      ("server-address", text "backend")]),
    ("reference", text "/port/@"), ("type", text "string")])]),
    ("port", container [("p", object [("type", text "string")])])]) (· ≠ 1)

def portAndLinkConfig : Json :=
  object [("link", object [("p", text "up")]), ("port", object [("p", text "on")])]

def removeLink : Json := .array [operation "remove" "/link/p" none]

def replaceLink : Json := .array [operation "replace" "/link/p" (some (text "down"))]

/-- A cancellation that can be followed: there is only one patch, tree and list of operations. -/
theorem cancelFollows_of_leads {env : Env} {manager : Manager} {patch jconfig document : Json}
    {tree target : Node} {items : List DiffItem}
    (cancellable : Manager.Cancellable env manager patch jconfig tree)
    (leads : Leads env patch jconfig tree items document target) :
    Manager.CancelFollows env manager := by
  intro patch' jconfig' tree' cancellable' items' begins
  cases cancellable.rollback.symm.trans cancellable'.rollback
  cases cancellable.candidate.symm.trans cancellable'.candidate
  cases leads.parsed.symm.trans begins.passes.parsed
  exact ⟨document, target, leads⟩

end FlexConfig.Sample
