import FlexConfig.Manager.Atomicity
import FlexConfig.Manager.Exactness

/-! # What the reference index says

The index is meant to hold, for every path, the nodes that refer to it: those whose
schema states a reference that denotes the path, where the path is that of a node. It
is extended at a load, an update and a reload, and cleared at a removal; it is never
computed anew. It keeps saying this through calls that remove exactly the nodes that
vanish and record only references of the configuration they make.
-/

namespace FlexConfig

open Procedure

section Meaning

/-- The paths that the reference attributes of the node at a location denote. -/
def denoted (env : Env) (location : Location) : List Str :=
  match env.getSchemaByXPath (XPath.toString location) with
  | .ok (some schema_node) =>
    (schema_node.FindAttr Config.PropertyName.REFERENCE).filterMap fun xpath_reference =>
      (evaluateReference location xpath_reference).toOption.join
  | _ => []

/-- A node of a tree refers to another one. -/
def Refers (env : Env) (root_config : Node) (source target : Str) : Prop :=
  ∃ visited ∈ root_config.nodes, XPath.toString visited.location = source ∧
    target ∈ denoted env visited.location ∧ target ∈ xpathsOf root_config

instance (env : Env) (root_config : Node) (source target : Str) :
    Decidable (Refers env root_config source target) :=
  inferInstanceAs (Decidable (∃ visited ∈ root_config.nodes, _))

/-- The index says exactly which nodes of a tree refer to which. -/
def IndexAgrees (env : Env) (root_config : Node) (index : References) : Prop :=
  ∀ source target, source ∈ index.sources target ↔ Refers env root_config source target

theorem mem_denoted {env : Env} {location : Location} {target : Str} :
    target ∈ denoted env location ↔
      ∃ schema_node, env.getSchemaByXPath (XPath.toString location) = .ok (some schema_node) ∧
        ∃ xpath_reference ∈ schema_node.FindAttr Config.PropertyName.REFERENCE,
          evaluateReference location xpath_reference = .ok (some target) := by
  unfold denoted
  cases looked : env.getSchemaByXPath (XPath.toString location) with
  | error reason => simp
  | ok answer =>
      cases answer with
      | none => simp
      | some schema_node =>
          have evaluates (xpath_reference : Str) :
              (evaluateReference location xpath_reference).toOption.join = some target ↔
                evaluateReference location xpath_reference = .ok (some target) := by
            rw [Option.join_eq_some_iff]
            exact mem_toOption
          simp [List.mem_filterMap, evaluates]

end Meaning

section Record

variable {env : Env} {root_config : Node}

theorem mem_recorded {xpath target : Str}
    (evaluates : ∃ targets, referenceTargets env root_config xpath = .ok targets) :
    target ∈ recorded env root_config xpath ↔
      ∃ schema_node node, env.getSchemaByXPath xpath = .ok (some schema_node) ∧
        XPath.select root_config xpath = some node ∧
        (∃ xpath_reference ∈ schema_node.FindAttr Config.PropertyName.REFERENCE,
          evaluateReference node.location xpath_reference = .ok (some target)) ∧
        (XPath.select root_config target).isSome = true := by
  obtain ⟨targets, evaluated⟩ := evaluates
  have here : recorded env root_config xpath = targets := by
    unfold recorded
    rw [evaluated]
    rfl
  rw [here]
  obtain ⟨answer, looked, evaluated⟩ := except_bind_eq_ok.mp evaluated
  cases answer with
  | none =>
      cases evaluated
      simp [looked]
  | some schema_node =>
      cases selected : XPath.select root_config xpath with
      | none =>
          simp only [selected] at evaluated
          cases evaluated
          simp
      | some node =>
          simp only [selected] at evaluated
          obtain ⟨references, mapped, finished⟩ := except_bind_eq_ok.mp evaluated
          cases finished
          simp [looked, List.mem_filter, mem_of_mapM mapped]

end Record

section Navigation

variable {env : Env} {root_config : Node}

/-- Paths lead where they say: the printed path of a node is read as its location and selects
it, and a path that a reference denotes selects nothing where it is not that of a node. -/
structure Navigable (env : Env) (root_config : Node) : Prop where
  parses : ∀ visited ∈ root_config.nodes,
    XPath.parse (XPath.toString visited.location) = visited.location
  selects : ∀ visited ∈ root_config.nodes,
    XPath.select root_config (XPath.toString visited.location) = some visited
  finds : ∀ visited ∈ root_config.nodes, ∀ target ∈ denoted env visited.location,
    (XPath.select root_config target).isSome = true → target ∈ xpathsOf root_config

instance (env : Env) (root_config : Node) : Decidable (Navigable env root_config) :=
  decidable_of_iff (_ ∧ _ ∧ _)
    ⟨fun ⟨parses, selects, finds⟩ => ⟨parses, selects, finds⟩,
      fun ⟨parses, selects, finds⟩ => ⟨parses, selects, finds⟩⟩

/-- A tree whose nodes can be ordered and found. -/
def Sound (env : Env) (root_config : Node) : Prop :=
  Sorts env root_config ∧ Navigable env root_config

instance (env : Env) (root_config : Node) : Decidable (Sound env root_config) :=
  inferInstanceAs (Decidable (_ ∧ _))

theorem mem_xpathsOf {xpath : Str} :
    xpath ∈ xpathsOf root_config ↔
      ∃ visited ∈ root_config.nodes, XPath.toString visited.location = xpath :=
  List.mem_map

theorem Navigable.orderable_iff (navigable : Navigable env root_config) {xpath : Str} :
    Orderable env root_config xpath ↔
      ∃ visited ∈ root_config.nodes, XPath.toString visited.location = xpath ∧
        ∃ schema_node, env.getSchemaByXPath xpath = .ok (some schema_node) := by
  have prints {visited : Located} (member : visited ∈ root_config.nodes) {schema_node : SchemaNode}
      (looked : env.getSchemaByXPath (XPath.toString visited.location) = .ok (some schema_node)) :
      XPath.toString schema_node.path = XPath.toString visited.location := by
    rw [getSchemaByXPath_path looked, navigable.parses visited member]
  constructor
  · intro orderable
    obtain ⟨visited, member, schema_node, looked, rfl⟩ := orderable
    have same := prints member looked
    exact ⟨visited, member, same.symm, schema_node, same ▸ looked⟩
  · intro present
    obtain ⟨visited, member, rfl, schema_node, looked⟩ := present
    exact ⟨visited, member, schema_node, looked, (prints member looked).symm⟩

/-- What saving records for a node are the nodes it refers to. -/
theorem Navigable.mem_recorded_iff (navigable : Navigable env root_config) {visited : Located}
    (member : visited ∈ root_config.nodes)
    (evaluates : ∃ targets,
      referenceTargets env root_config (XPath.toString visited.location) = .ok targets)
    {target : Str} :
    target ∈ recorded env root_config (XPath.toString visited.location) ↔
      Refers env root_config (XPath.toString visited.location) target := by
  have selected := navigable.selects visited member
  rw [mem_recorded evaluates]
  constructor
  · intro records
    obtain ⟨schema_node, node, looked, selected', denotes, found⟩ := records
    have same := selected.symm.trans selected'
    cases same
    have denotes' := mem_denoted.mpr ⟨schema_node, looked, denotes⟩
    exact ⟨visited, member, rfl, denotes', navigable.finds visited member target denotes' found⟩
  · intro refers
    obtain ⟨other, otherMember, named, denotes, present⟩ := refers
    have same : other.location = visited.location := by
      rw [← navigable.parses other otherMember, named, navigable.parses visited member]
    rw [same] at denotes
    obtain ⟨schema_node, looked, reference⟩ := mem_denoted.mp denotes
    obtain ⟨node, nodeMember, rfl⟩ := mem_xpathsOf.mp present
    refine ⟨schema_node, visited, looked, selected, reference, ?_⟩
    rw [navigable.selects node nodeMember]
    rfl

/-- Saving the references of all ordered nodes of a tree adds those it has. -/
theorem Sound.mem_sources_iff (sound : Sound env root_config) {ordered : List Str}
    {index saved : References}
    (resolved : NodeDependencyManager.resolve env root_config = .ok ordered)
    (saves : saveXPathReference env ordered root_config index = .ok saved) {source target : Str} :
    source ∈ saved.sources target ↔
      Refers env root_config source target ∨ source ∈ index.sources target := by
  obtain ⟨sorts, navigable⟩ := sound
  obtain ⟨evaluates, members⟩ := saveXPathReference_spec saves
  obtain ⟨_, sorted, _⟩ := resolve_spec resolved
  rw [members]
  apply or_congr_left
  constructor
  · intro listed
    obtain ⟨member, records⟩ := listed
    obtain ⟨visited, present, rfl, _⟩ :=
      navigable.orderable_iff.mp ((sorted sorts source).mp member)
    exact (navigable.mem_recorded_iff present (evaluates _ member)).mp records
  · intro refers
    obtain ⟨visited, present, rfl, denotes, _⟩ := id refers
    obtain ⟨schema_node, looked, _⟩ := mem_denoted.mp denotes
    have member : XPath.toString visited.location ∈ ordered :=
      (sorted sorts _).mpr (navigable.orderable_iff.mpr ⟨visited, present, rfl, schema_node, looked⟩)
    exact ⟨member, (navigable.mem_recorded_iff present (evaluates _ member)).mpr refers⟩

end Navigation

section Fit

variable {env : Env} {items : List DiffItem} {root source_config edited target_config : Node}

/-- Saving records something only where the references can be evaluated. -/
theorem evaluates_of_mem_recorded {root_config : Node} {xpath target : Str}
    (records : target ∈ recorded env root_config xpath) :
    ∃ targets, referenceTargets env root_config xpath = .ok targets := by
  unfold recorded at records
  cases evaluated : referenceTargets env root_config xpath with
  | ok targets => exact ⟨targets, rfl⟩
  | error reason =>
      rw [evaluated] at records
      cases records

/-- References of a tree are those of another one that has its nodes. -/
theorem Refers.within {source target : Str} (refers : Refers env edited source target)
    (navigable : Navigable env edited) (navigable' : Navigable env target_config)
    (within : ∀ xpath ∈ xpathsOf edited, xpath ∈ xpathsOf target_config) :
    Refers env target_config source target := by
  obtain ⟨visited, member, rfl, denotes, present⟩ := refers
  obtain ⟨other, otherMember, named⟩ :=
    mem_xpathsOf.mp (within _ (mem_xpathsOf.mpr ⟨visited, member, rfl⟩))
  have same : other.location = visited.location := by
    rw [← navigable'.parses other otherMember, named, navigable.parses visited member]
  exact ⟨other, otherMember, named, same ▸ denotes, within target present⟩

/-- A patch that leads to a tree fits the index of a configuration on the way to another one: the
tree can be ordered and has only nodes of the other configuration, and the removed nodes are those
that vanish. -/
structure IndexFits (env : Env) (items : List DiffItem)
    (root source_config edited target_config : Node) : Prop where
  sound : Sound env edited
  within : ∀ xpath ∈ xpathsOf edited, xpath ∈ xpathsOf target_config
  removes : ∀ xpath ∈ xpathsOf source_config,
    IsRemoved env items root xpath ↔ xpath ∉ xpathsOf target_config

instance : Decidable (IndexFits env items root source_config edited target_config) :=
  decidable_of_iff (_ ∧ _ ∧ _)
    ⟨fun ⟨sound, within, removes⟩ => ⟨sound, within, removes⟩,
      fun ⟨sound, within, removes⟩ => ⟨sound, within, removes⟩⟩

/-- Every node of a configuration that refers to another one was there and is not updated, or it is
updated in a tree that has the other one, too. -/
def IndexCovers (env : Env) (items : List DiffItem) (source_config edited target_config : Node) :
    Prop :=
  ∀ source ∈ xpathsOf target_config, ∀ target ∈ xpathsOf target_config,
    Refers env target_config source target →
      (source ∈ xpathsOf source_config ∧ ¬ IsUpdated env items edited source) ∨
        (IsUpdated env items edited source ∧ target ∈ xpathsOf edited)

instance : Decidable (IndexCovers env items source_config edited target_config) :=
  inferInstanceAs (Decidable (∀ _ ∈ _, _))

/-- What is recorded for an updated node is a reference of the other configuration. -/
theorem IndexFits.refers_of_recorded
    (fits : IndexFits env items root source_config edited target_config)
    (navigable : Navigable env target_config) {source target : Str}
    (updated : IsUpdated env items edited source) (records : target ∈ recorded env edited source) :
    Refers env target_config source target := by
  obtain ⟨_, inEdited⟩ := fits.sound
  obtain ⟨visited, member, rfl, _⟩ := inEdited.orderable_iff.mp updated.2.1
  exact ((inEdited.mem_recorded_iff member (evaluates_of_mem_recorded records)).mp records).within
    inEdited navigable fits.within

/-- A reference that is still in the index after a removal is one of the other tree: its source
has not vanished, and the removal of its target would have been refused. -/
theorem refers_of_kept {before index : References} {removed : List Str}
    (agrees : IndexAgrees env source_config before)
    (navigable : Navigable env source_config) (navigable' : Navigable env target_config)
    (fits : IndexFits env items root source_config edited target_config)
    (listed : ∀ xpath, xpath ∈ removed ↔ IsRemoved env items root xpath)
    (removes : removeXPathReference removed before = .ok index) {source target : Str}
    (kept : source ∈ index.sources target) : Refers env target_config source target := by
  obtain ⟨clear, rfl⟩ := removeXPathReference_eq_ok.mp removes
  obtain ⟨indexed, remains⟩ := References.mem_sources_dropSources.mp kept
  obtain ⟨visited, member, rfl, denotes, present⟩ := (agrees _ _).mp indexed
  have sourceStays : XPath.toString visited.location ∈ xpathsOf target_config := by
    by_contra vanishes
    exact remains ((listed _).mpr
      ((fits.removes _ (mem_xpathsOf.mpr ⟨visited, member, rfl⟩)).mpr vanishes))
  have targetStays : target ∈ xpathsOf target_config := by
    by_contra vanishes
    have gone := clear target ((listed _).mpr ((fits.removes target present).mpr vanishes))
    rw [gone] at kept
    cases kept
  obtain ⟨other, otherMember, named⟩ := mem_xpathsOf.mp sourceStays
  have same : other.location = visited.location := by
    rw [← navigable'.parses other otherMember, named, navigable.parses visited member]
  exact ⟨other, otherMember, named, same ▸ denotes, targetStays⟩

end Fit

section Run

variable {env : Env} {before after : Manager}

/-- The configuration in force: the candidate while one is pending. -/
def Manager.inForce (manager : Manager) : Option Node :=
  if manager.isCandidateConfigReady then manager.candidateConfig else manager.runningConfig

/-- The index agrees with the configuration in force. While a candidate is pending, a node it
shares with the running configuration has kept its references. -/
structure Indexed (env : Env) (manager : Manager) : Prop where
  running : ∃ tree, manager.runningConfig = some tree ∧ Navigable env tree
  idle : manager.isCandidateConfigReady = false → ∀ tree, manager.runningConfig = some tree →
    IndexAgrees env tree manager.candidateReferences
  pending : manager.isCandidateConfigReady = true →
    ∃ candidate, manager.candidateConfig = some candidate ∧ Navigable env candidate ∧
      IndexAgrees env candidate manager.candidateReferences ∧
      ∀ tree, manager.runningConfig = some tree → ∀ source target, Refers env tree source target →
        source ∈ xpathsOf candidate → Refers env candidate source target

/-- The calls that keep the index. A candidate is made while none is pending, by a patch whose tree
fits the index on the way to that of the patched document; a patch that is not accepted keeps the
index. A candidate is cancelled by a patch whose tree fits the index on the way back, with all that
refers to something new updated; a refused cancellation has not edited the tree, and one that raises
has not passed the removal. -/
def IndexKept (env : Env) (manager : Manager) : Manager.Op → Prop
  | .makeCandidateConfig patch =>
    ((∃ after, Manager.makeCandidateConfig env patch manager = .ok ⟨⟩ after) →
      manager.isCandidateConfigReady = false ∧
        ∀ root, Manager.Admitted env manager patch root → ∀ tree ∈ manager.runningConfig,
          ∃ items document edited target,
            Leads env patch manager.runningJson root items document edited ∧
            buildTree env document = .ok target ∧ Sound env target ∧
            IndexFits env items root tree edited target) ∧
    ((∃ reason after, Manager.makeCandidateConfig env patch manager = .error reason after) →
      Manager.MakeFollows env manager patch ∧ Manager.RefusalKeepsIndex env manager patch)
  | .applyCandidateConfig _ => True
  | .cancelCandidateConfig =>
    ((∃ after, Manager.cancelCandidateConfig env manager = .ok ⟨⟩ after) →
      ∀ patch jconfig candidate, Manager.Cancellable env manager patch jconfig candidate →
        ∀ tree ∈ manager.runningConfig, ∃ items document edited,
          Leads env patch jconfig candidate items document edited ∧
          IndexFits env items candidate candidate edited tree ∧
          IndexCovers env items candidate edited tree) ∧
    ((∃ after, Manager.cancelCandidateConfig env manager = .error .rejected after) →
      Manager.CancelFollows env manager ∧ ¬ Manager.CancelStopsEdited env manager) ∧
    ((∃ after, Manager.cancelCandidateConfig env manager = .error .raised after) →
      ∀ patch jconfig candidate, Manager.Cancellable env manager patch jconfig candidate →
        ∀ items, ¬ RemovalPasses env patch jconfig items candidate manager.candidateReferences)

theorem Course.saves {site : Site} {patch jconfig : Json} {draft : Draft}
    (course : Course env site patch jconfig draft) :
    saveXPathReference env course.ordered course.edited course.index = .ok course.saved := by
  obtain ⟨_, _, _, _, saves⟩ := prepared_ordered course.prepared
  exact saves

/-- What the index says at the end of a course was kept by the removal or recorded by the
update. -/
theorem Course.mem_sources_iff {site : Site} {patch jconfig : Json} {draft : Draft}
    (course : Course env site patch jconfig draft) {source target : Str} :
    source ∈ course.saved.sources target ↔
      (source ∈ course.ordered ∧ target ∈ recorded env course.edited source) ∨
        source ∈ course.index.sources target :=
  (saveXPathReference_spec course.saves).2 source target

theorem Course.mem_removed_iff {site : Site} {patch jconfig : Json} {draft : Draft}
    (course : Course env site patch jconfig draft) (xpath : Str) :
    xpath ∈ course.removal.ordered ↔ IsRemoved env course.items draft.nodeConfig xpath :=
  mem_removal_iff course.begun.planned course.begun.parsed

theorem Course.mem_updated_iff {site : Site} {patch jconfig : Json} {draft : Draft}
    (course : Course env site patch jconfig draft) (xpath : Str) :
    xpath ∈ course.ordered ↔ IsUpdated env course.items course.edited xpath :=
  mem_ordered_iff course.prepared

theorem indexed_of_making {patch : Json} (indexed : Indexed env before)
    (maps : MapsOrdered before) (making : Manager.Making env patch before)
    (kept : IndexKept env before (.makeCandidateConfig patch)) : Indexed env making.result := by
  obtain ⟨tree, running, navigable⟩ := indexed.running
  obtain ⟨idle, fits⟩ := kept.1 ⟨_, Manager.Making.make_eq_ok_iff.mpr ⟨making, rfl⟩⟩
  obtain ⟨items, document, edited, target, leads, built, sound, fits⟩ :=
    fits making.root making.admitted tree running
  obtain ⟨_, _, _, _, reloads, resolved, saves⟩ := Manager.reload_eq_ok.mp making.reload
  obtain ⟨rfl, rfl, rfl⟩ := leads.course (maps.root making.admitted) making.course
  cases built.symm.trans reloads
  have agrees := indexed.idle idle tree running
  have stays {source target : Str} (member : source ∈ making.course.index.sources target) :
      Refers env making.reloaded.1 source target :=
    refers_of_kept agrees navigable sound.2 fits making.course.mem_removed_iff
      making.course.begun.unreferenced member
  refine ⟨⟨tree, running, navigable⟩, fun impossible => (by cases impossible), fun _ => ?_⟩
  refine ⟨making.reloaded.1, rfl, sound.2, ?_, ?_⟩
  · intro source target
    change source ∈ making.reloaded.2.sources target ↔ _
    rw [sound.mem_sources_iff resolved saves, making.course.mem_sources_iff, or_iff_left_iff_imp]
    intro earlier
    cases earlier with
    | inl recordedNow =>
        exact fits.refers_of_recorded sound.2 ((making.course.mem_updated_iff _).mp recordedNow.1)
          recordedNow.2
    | inr member => exact stays member
  · intro tree' running' source target refers shared
    have same := running.symm.trans running'
    cases same
    obtain ⟨visited, member, rfl, _⟩ := id refers
    have remains : XPath.toString visited.location ∉ making.course.removal.ordered := by
      intro removed
      exact (fits.removes _ (mem_xpathsOf.mpr ⟨visited, member, rfl⟩)).mp
        ((making.course.mem_removed_iff _).mp removed) shared
    apply stays
    obtain ⟨_, dropped⟩ := removeXPathReference_eq_ok.mp making.course.begun.unreferenced
    rw [dropped]
    exact References.mem_sources_dropSources.mpr ⟨(agrees _ _).mpr refers, remains⟩

theorem indexed_of_cancelling (indexed : Indexed env before) (maps : MapsOrdered before)
    (cancelling : Manager.Cancelling env before)
    (kept : IndexKept env before .cancelCandidateConfig) : Indexed env cancelling.result := by
  obtain ⟨tree, running, navigable⟩ := indexed.running
  obtain ⟨items, document, edited, leads, fits, covers⟩ :=
    kept.1 ⟨_, Manager.Cancelling.cancel_eq_ok_iff.mpr ⟨cancelling, rfl⟩⟩ cancelling.patch
      cancelling.jconfig cancelling.tree cancelling.cancellable tree running
  have ordered := maps.candidate cancelling.tree cancelling.cancellable.candidate
  obtain ⟨rfl, rfl, rfl⟩ := leads.course ordered cancelling.course
  obtain ⟨candidate, pending, navigable', agrees, shared⟩ :=
    indexed.pending cancelling.cancellable.ready
  have same := pending.symm.trans cancelling.cancellable.candidate
  cases same
  refine ⟨⟨tree, running, navigable⟩, fun _ tree' running' => ?_,
    fun impossible => by cases impossible⟩
  have sameTree := running.symm.trans running'
  cases sameTree
  intro source target
  change source ∈ cancelling.course.saved.sources target ↔ _
  rw [cancelling.course.mem_sources_iff]
  constructor
  · intro member
    cases member with
    | inl recordedNow =>
        exact fits.refers_of_recorded navigable
          ((cancelling.course.mem_updated_iff _).mp recordedNow.1) recordedNow.2
    | inr member =>
        exact refers_of_kept agrees navigable' navigable fits cancelling.course.mem_removed_iff
          cancelling.course.begun.unreferenced member
  · intro refers
    obtain ⟨visited, member, rfl, denotes, present⟩ := id refers
    have here : XPath.toString visited.location ∈ xpathsOf tree :=
      mem_xpathsOf.mpr ⟨visited, member, rfl⟩
    rcases covers _ here target present refers with ⟨both, _⟩ | ⟨updated, inEdited⟩
    · have remains : XPath.toString visited.location ∉ cancelling.course.removal.ordered :=
        fun removed => (fits.removes _ both).mp
          ((cancelling.course.mem_removed_iff _).mp removed) here
      obtain ⟨_, dropped⟩ := removeXPathReference_eq_ok.mp cancelling.course.begun.unreferenced
      right
      rw [dropped]
      exact References.mem_sources_dropSources.mpr
        ⟨(agrees _ _).mpr (shared tree running _ _ refers both), remains⟩
    · -- the updated node is recorded from the tree that the patch leads to
      obtain ⟨_, navigableEdited⟩ := fits.sound
      obtain ⟨other, otherMember, named, _⟩ := navigableEdited.orderable_iff.mp updated.2.1
      have listed := (cancelling.course.mem_updated_iff _).mpr updated
      have sameLocation : other.location = visited.location := by
        rw [← navigableEdited.parses other otherMember, named, navigable.parses visited member]
      have evaluates := (saveXPathReference_spec cancelling.course.saves).1 _ listed
      rw [← named] at evaluates ⊢
      refine .inl ⟨named ▸ listed, ?_⟩
      exact (navigableEdited.mem_recorded_iff otherMember evaluates).mpr
        ⟨other, otherMember, rfl, sameLocation ▸ denotes, inEdited⟩

/-- Two managers with the same trees, flag and index are indexed alike. -/
theorem Indexed.of_same (indexed : Indexed env before)
    (running : after.runningConfig = before.runningConfig)
    (candidate : after.candidateConfig = before.candidateConfig)
    (ready : after.isCandidateConfigReady = before.isCandidateConfigReady)
    (references : after.candidateReferences = before.candidateReferences) : Indexed env after := by
  refine ⟨?_, ?_, ?_⟩
  · rw [running]
    exact indexed.running
  · rw [running, ready, references]
    exact indexed.idle
  · rw [running, candidate, ready, references]
    exact indexed.pending

theorem indexed_of_make_error {patch : Json} {reason : Halt} (indexed : Indexed env before)
    (maps : MapsOrdered before) (kept : IndexKept env before (.makeCandidateConfig patch))
    (halted : Manager.makeCandidateConfig env patch before = .error reason after) :
    Indexed env after := by
  obtain ⟨follows, keeps⟩ := kept.2 ⟨reason, after, halted⟩
  have same := (Manager.make_halted_unchanged_iff maps follows halted).mpr keeps
  rw [same]
  exact indexed.of_same rfl rfl rfl rfl

theorem indexed_of_apply {files : FileOutcome} (indexed : Indexed env before) :
    Indexed env (final (Manager.applyCandidateConfig files before)) := by
  rcases Manager.apply_cases files before with ⟨reason, halted⟩ | ⟨ready, _, applied⟩
  · rw [halted]
    exact indexed
  · rw [applied]
    obtain ⟨candidate, pending, navigable, agrees, _⟩ := indexed.pending ready
    refine ⟨⟨candidate, pending, navigable⟩, fun _ tree same => ?_,
      fun impossible => by cases impossible⟩
    have sameTree := pending.symm.trans same
    cases sameTree
    exact agrees

theorem indexed_of_cancel_error {reason : Halt} (indexed : Indexed env before)
    (maps : MapsOrdered before) (kept : IndexKept env before .cancelCandidateConfig)
    (halted : Manager.cancelCandidateConfig env before = .error reason after)
    (goesOn : Manager.goesOn (.error reason after) = true) : Indexed env after := by
  obtain ⟨_, refuses, raises⟩ := kept
  cases reason with
  | exited | crashed => cases goesOn
  | rejected =>
      obtain ⟨follows, unedited⟩ := refuses ⟨after, halted⟩
      rw [Manager.cancel_rejected_unchanged maps follows unedited halted]
      exact indexed.of_same rfl rfl rfl rfl
  | raised =>
      have unpassed := raises ⟨after, halted⟩
      by_cases cancellable : ∃ patch jconfig tree, Manager.Cancellable env before patch jconfig tree
      · obtain ⟨patch, jconfig, tree, cancellable⟩ := cancellable
        rcases begun_or_unwritten env before.site patch jconfig (before.runningDraft tree) with
          ⟨cause, unwritten⟩ | ⟨items, removal, index, begun⟩
        · rw [Manager.cancel_of_cancellable cancellable, unwritten] at halted
          cases cause with
          | rejected | exited | crashed => cases halted
          | raised =>
              cases halted
              exact indexed.of_same rfl cancellable.candidate.symm rfl rfl
        · exact absurd (begun_iff.mp ⟨removal, index, begun⟩)
            (unpassed patch jconfig tree cancellable items)
      · obtain ⟨why, unchanged⟩ := Manager.cancel_of_not_cancellable cancellable
        rw [unchanged] at halted
        cases halted
        exact indexed

theorem indexed_of_step {op : Manager.Op} (indexed : Indexed env before)
    (maps : MapsOrdered before) (kept : IndexKept env before op)
    (step : Manager.Step env before op after) : Indexed env after := by
  obtain ⟨goes, rfl⟩ := step
  cases op with
  | makeCandidateConfig patch =>
      change Indexed env (final (Manager.makeCandidateConfig env patch before))
      cases made : Manager.makeCandidateConfig env patch before with
      | ok _ next =>
          obtain ⟨making, rfl⟩ := Manager.Making.make_eq_ok_iff.mp made
          exact indexed_of_making indexed maps making kept
      | error reason next => exact indexed_of_make_error indexed maps kept made
  | applyCandidateConfig files => exact indexed_of_apply indexed
  | cancelCandidateConfig =>
      change Manager.goesOn (Manager.cancelCandidateConfig env before) = true at goes
      change Indexed env (final (Manager.cancelCandidateConfig env before))
      cases cancelled : Manager.cancelCandidateConfig env before with
      | ok _ next =>
          obtain ⟨cancelling, rfl⟩ := Manager.Cancelling.cancel_eq_ok_iff.mp cancelled
          exact indexed_of_cancelling indexed maps cancelling kept
      | error reason next =>
          rw [cancelled] at goes
          exact indexed_of_cancel_error indexed maps kept cancelled goes

theorem indexed_of_loaded (loaded : Manager.Loaded env after)
    (sound : ∀ tree ∈ after.runningConfig, Sound env tree) : Indexed env after := by
  obtain ⟨jconfig, log, loaded⟩ := loaded
  obtain ⟨reloaded, _, attempted, loaded⟩ := bind_eq_ok.mp loaded
  obtain ⟨_, _, _, loaded⟩ := bind_eq_ok.mp loaded
  rw [get_bind] at loaded
  cases loaded
  obtain ⟨_, _, _, _, _, resolved, saves⟩ :=
    Manager.reload_eq_ok.mp (attempt_eq_ok.mp attempted).1
  have sound := sound reloaded.1 rfl
  refine ⟨⟨reloaded.1, rfl, sound.2⟩, fun _ tree running => ?_,
    fun impossible => by cases impossible⟩
  cases running
  intro source target
  change source ∈ reloaded.2.sources target ↔ _
  rw [sound.mem_sources_iff resolved saves]
  have none : source ∉ References.sources [] target := List.not_mem_nil
  exact or_iff_left none

end Run

end FlexConfig

namespace FlexConfig.Sample

open Procedure

/-- Links that refer to the ports of their names. -/
def linksAndPorts : Env :=
  let link := object [("action", object [("on-delete-path", text "/delete"),
    ("on-update-path", text "/update"), ("server-address", text "backend")]),
    ("reference", text "/port/@"), ("type", text "string")]
  let port := object [("type", text "string")]
  deployment (container [("link", container [("p", link), ("q", link)]),
    ("port", container [("p", port), ("q", port)])]) fun _ => true

def linksAndPortsConfig : Json :=
  object [("link", object [("p", text "up")]), ("port", object [("p", text "on"), ("q", text "on")])]

def addLink : Json := .array [operation "add" "/link/q" (some (text "up"))]

/-- A test for calls that return and keep the index. -/
def keepsIndex (env : Env) (manager : Manager) : Manager.Op → Bool
  | .makeCandidateConfig patch =>
    decide (∃ making ∈ Manager.Making.find env patch manager,
      manager.isCandidateConfigReady = false ∧ ∀ tree ∈ manager.runningConfig,
        Leads env patch manager.runningJson making.root making.course.items
            making.course.json_config making.course.edited ∧
          Sound env making.reloaded.1 ∧
          IndexFits env making.course.items making.root tree making.course.edited
            making.reloaded.1)
  | .applyCandidateConfig _ => true
  | .cancelCandidateConfig =>
    decide (∃ cancelling ∈ Manager.Cancelling.find env manager, ∀ tree ∈ manager.runningConfig,
      Leads env cancelling.patch cancelling.jconfig cancelling.tree cancelling.course.items
          cancelling.course.json_config cancelling.course.edited ∧
        IndexFits env cancelling.course.items cancelling.tree cancelling.tree
          cancelling.course.edited tree ∧
        IndexCovers env cancelling.course.items cancelling.tree cancelling.course.edited tree)

theorem keepsIndex_sound {env : Env} (manager : Manager) (op : Manager.Op)
    (keeps : keepsIndex env manager op = true) : IndexKept env manager op := by
  cases op with
  | makeCandidateConfig patch =>
      obtain ⟨making, _, idle, fits⟩ := of_decide_eq_true keeps
      have returns := Manager.Making.make_eq_ok_iff.mpr ⟨making, rfl⟩
      refine ⟨fun _ => ⟨idle, fun root admitted tree running => ?_⟩, fun halts => ?_⟩
      · obtain ⟨other, running', rfl⟩ := admitted.running
        obtain ⟨made, running'', same⟩ := making.admitted.running
        cases running'.symm.trans running''
        obtain ⟨_, _, _, _, built, _, _⟩ := Manager.reload_eq_ok.mp making.reload
        obtain ⟨leads, sound, fits⟩ := fits tree running
        rw [same]
        exact ⟨_, _, _, _, leads, built, sound, fits⟩
      · obtain ⟨reason, after, halted⟩ := halts
        cases returns.symm.trans halted
  | applyCandidateConfig files => exact trivial
  | cancelCandidateConfig =>
      obtain ⟨cancelling, _, fits⟩ := of_decide_eq_true keeps
      have returns := Manager.Cancelling.cancel_eq_ok_iff.mpr ⟨cancelling, rfl⟩
      refine ⟨fun _ patch jconfig candidate cancellable tree running => ?_, ?_, ?_⟩
      · cases cancelling.cancellable.rollback.symm.trans cancellable.rollback
        cases cancelling.cancellable.candidate.symm.trans cancellable.candidate
        exact ⟨_, _, _, fits tree running⟩
      · rintro ⟨after, halted⟩
        cases returns.symm.trans halted
      · rintro ⟨after, halted⟩
        cases returns.symm.trans halted

end FlexConfig.Sample
