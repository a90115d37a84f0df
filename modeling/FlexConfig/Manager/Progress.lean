import FlexConfig.Backend.Messages
import FlexConfig.Manager.Acceptance
import FlexConfig.Manager.Reloading

/-! # How far a call gets

The routine that makes a candidate plans the removal, posts the deletions, edits the tree, plans
the update and posts it. Which of these it completes is told here by what it is given: the patch,
the documents and trees, the schema and the answers of the backend.
-/

namespace FlexConfig

open Procedure

section Nodes

/-- The nodes that a patch removes, listed once each. -/
def removedNodes (env : Env) (items : List DiffItem) (source : Node) : List Str :=
  (orderablePaths env (removalTree items source)).dedup.filter fun xpath =>
    IsRemoved env items source xpath

/-- The nodes that a patch updates, listed once each. -/
def updatedNodes (env : Env) (items : List DiffItem) (target : Node) : List Str :=
  (orderablePaths env target).dedup.filter fun xpath => IsUpdated env items target xpath

variable {env : Env} {items : List DiffItem} {source target : Node}

theorem mem_removedNodes {xpath : Str} :
    xpath ∈ removedNodes env items source ↔ IsRemoved env items source xpath := by
  unfold removedNodes
  rw [List.mem_filter, List.mem_dedup, decide_eq_true_iff, mem_orderablePaths]
  exact and_iff_right_of_imp fun removed => removed.2.1

theorem mem_updatedNodes {xpath : Str} :
    xpath ∈ updatedNodes env items target ↔ IsUpdated env items target xpath := by
  unfold updatedNodes
  rw [List.mem_filter, List.mem_dedup, decide_eq_true_iff, mem_orderablePaths]
  exact and_iff_right_of_imp fun updated => updated.2.1

/-- The removed nodes in their order. -/
theorem removal_perm {patch jconfig : Json} {removal : Removal}
    (planned : planRemoval env patch jconfig source = .ok removal)
    (parsed : patch.patchItems = .ok items) :
    removal.ordered.Perm (removedNodes env items source) := by
  obtain ⟨once, _⟩ := removed_upperLast planned parsed
  exact (List.perm_ext_iff_of_nodup once ((List.nodup_dedup _).filter _)).mpr fun xpath =>
    (mem_removal_iff planned parsed).trans mem_removedNodes.symm

/-- The updated nodes in their order. -/
theorem update_perm {removal : Removal} {before : Draft} {json_config : Json} {ordered : List Str}
    {saved : References}
    (prepared : Prepared env items removal before json_config target ordered saved) :
    ordered.Perm (updatedNodes env items target) := by
  obtain ⟨once, _⟩ := updated_upperFirst prepared
  exact (List.perm_ext_iff_of_nodup once ((List.nodup_dedup _).filter _)).mpr fun xpath =>
    (mem_ordered_iff prepared).trans mem_updatedNodes.symm

end Nodes

section Removal

/-- The removal of a patch passes: it can be planned, its checks included, and no node that stays
refers to a removed one. -/
structure RemovalPasses (env : Env) (patch jconfig : Json) (items : List DiffItem) (source : Node)
    (index : References) : Prop where
  parsed : patch.patchItems = .ok items
  planned : ∃ removal, planRemoval env patch jconfig source = .ok removal
  unreferenced : ∀ xpath ∈ removedNodes env items source, ∀ referrer ∈ index.sources xpath,
    IsRemoved env items source referrer

instance (env : Env) (patch jconfig : Json) (items : List DiffItem) (source : Node)
    (index : References) : Decidable (RemovalPasses env patch jconfig items source index) :=
  decidable_of_iff (patch.patchItems = .ok items ∧
      (planRemoval env patch jconfig source).toOption.isSome = true ∧
      ∀ xpath ∈ removedNodes env items source, ∀ referrer ∈ index.sources xpath,
        IsRemoved env items source referrer) <| by
    have plans : (planRemoval env patch jconfig source).toOption.isSome = true ↔
        ∃ removal, planRemoval env patch jconfig source = .ok removal :=
      Option.isSome_iff_exists.trans (exists_congr fun _ => mem_toOption)
    rw [plans]
    exact ⟨fun ⟨parsed, planned, unreferenced⟩ => ⟨parsed, planned, unreferenced⟩,
      fun ⟨parsed, planned, unreferenced⟩ => ⟨parsed, planned, unreferenced⟩⟩

variable {env : Env} {site : Site} {patch jconfig : Json} {items : List DiffItem} {before : Draft}

/-- The routine begins to post exactly where the removal passes. -/
theorem begun_iff :
    (∃ removal index, Begun env patch jconfig before items removal index) ↔
      RemovalPasses env patch jconfig items before.nodeConfig before.references := by
  constructor
  · rintro ⟨removal, index, planned, parsed, unreferenced⟩
    obtain ⟨clear, _⟩ := removeXPathReference_eq_ok.mp unreferenced
    refine ⟨parsed, ⟨removal, planned⟩, fun xpath member referrer refers => ?_⟩
    rw [mem_removedNodes, ← mem_removal_iff planned parsed] at member
    rw [← mem_removal_iff planned parsed]
    by_contra stays
    have kept := References.mem_sources_dropSources.mpr ⟨refers, stays⟩
    rw [clear xpath member] at kept
    cases kept
  · rintro ⟨parsed, ⟨removal, planned⟩, unreferenced⟩
    refine ⟨removal, _, planned, parsed, removeXPathReference_eq_ok.mpr ⟨fun xpath member => ?_, rfl⟩⟩
    refine List.eq_nil_iff_forall_not_mem.mpr fun referrer kept => ?_
    obtain ⟨refers, stays⟩ := References.mem_sources_dropSources.mp kept
    refine stays ((mem_removal_iff planned parsed).mpr (unreferenced xpath ?_ referrer refers))
    rw [mem_removedNodes, ← mem_removal_iff planned parsed]
    exact member

/-- The routine comes to the edit of the tree: the removal passes, and all deletions are
answered. -/
structure UpdateBegins (env : Env) (site : Site) (patch jconfig : Json) (items : List DiffItem)
    (before : Draft) : Prop where
  passes : RemovalPasses env patch jconfig items before.nodeConfig before.references
  deleted : Replied env (deleteAction env site.configFile)
    (removedNodes env items before.nodeConfig) before.posts.length

instance : Decidable (UpdateBegins env site patch jconfig items before) :=
  decidable_of_iff (_ ∧ _) ⟨fun ⟨passes, deleted⟩ => ⟨passes, deleted⟩,
    fun ⟨passes, deleted⟩ => ⟨passes, deleted⟩⟩

theorem deletions_iff {removal : Removal} {index : References}
    (begun : Begun env patch jconfig before items removal index) :
    (∃ log, postDeletions env site [] removal.ordered before.posts = .ok ⟨⟩ log) ↔
      Replied env (deleteAction env site.configFile) (removedNodes env items before.nodeConfig)
        before.posts.length := by
  rw [postDeletions_eq, exists_postEach_eq_ok_iff]
  have same := removal_perm begun.planned begun.parsed
  exact ⟨fun replied => replied.perm same, fun replied => replied.perm same.symm⟩

/-- The routine comes to the edit exactly where it has posted the deletions. -/
theorem updateBegins_iff {removal : Removal} {index : References}
    (begun : Begun env patch jconfig before items removal index) :
    UpdateBegins env site patch jconfig items before ↔
      ∃ log, postDeletions env site [] removal.ordered before.posts = .ok ⟨⟩ log := by
  rw [deletions_iff begun]
  exact ⟨fun begins => begins.deleted, fun deleted => ⟨begun_iff.mp ⟨_, _, begun⟩, deleted⟩⟩

/-- What the routine has done when it comes to the edit. -/
theorem UpdateBegins.begun (begins : UpdateBegins env site patch jconfig items before) :
    ∃ removal index log, Begun env patch jconfig before items removal index ∧
      postDeletions env site [] removal.ordered before.posts = .ok ⟨⟩ log ∧
      log.length = before.posts.length + messageCount (deleteAction env site.configFile)
        (removedNodes env items before.nodeConfig) := by
  obtain ⟨removal, index, begun⟩ := begun_iff.mpr begins.passes
  obtain ⟨log, posted⟩ := (updateBegins_iff begun).mp begins
  refine ⟨removal, index, log, begun, posted, ?_⟩
  rw [postDeletions_eq] at posted
  rw [length_of_postEach posted]
  exact congrArg _ ((removal_perm begun.planned begun.parsed).filter _).length_eq

end Removal

section Update

/-- The update of a patch passes in a tree: its nodes can be ordered, and each updated one is
found, passes its checks, and has references that can be evaluated. -/
structure UpdatesPass (env : Env) (items : List DiffItem) (target : Node) : Prop where
  resolves : ∃ ordered, NodeDependencyManager.resolve env target = .ok ordered
  passes : ∀ xpath, IsUpdated env items target xpath →
    Found env target xpath ∧ Passes env target xpath
  evaluates : ∀ xpath, IsUpdated env items target xpath →
    ∃ targets, referenceTargets env target xpath = .ok targets

variable {env : Env} {items : List DiffItem} {target : Node}

theorem mem_orderUpdates {ordered : List Str}
    (listing : orderUpdates env items target = .ok ordered) {xpath : Str} :
    xpath ∈ ordered ↔ IsUpdated env items target xpath := by
  obtain ⟨resolved, orders, finished⟩ := except_bind_eq_ok.mp listing
  cases finished
  obtain ⟨_, sorted, unsorted⟩ := resolve_spec orders
  rw [List.mem_filter]
  by_cases sorts : Sorts env target
  · rw [sorted sorts, IsUpdated, and_iff_right sorts]
  · rw [unsorted sorts]
    exact iff_of_false (fun both => absurd both.1 List.not_mem_nil) fun updated => sorts updated.1

/-- The update can be planned exactly where it passes, whatever the index. -/
theorem exists_planUpdate_eq_ok_iff (index : References) :
    (∃ plan, planUpdate env items target index = .ok plan) ↔ UpdatesPass env items target := by
  constructor
  · rintro ⟨plan, planned⟩
    obtain ⟨ordered, listing, planned⟩ := except_bind_eq_ok.mp planned
    obtain ⟨_, checked, planned⟩ := except_bind_eq_ok.mp planned
    obtain ⟨saved, saves, _⟩ := except_bind_eq_ok.mp planned
    obtain ⟨resolved, orders, _⟩ := except_bind_eq_ok.mp listing
    refine ⟨⟨resolved, orders⟩, fun xpath updated => ?_, fun xpath updated => ?_⟩
    · exact checkUpdates_eq_ok.mp checked xpath ((mem_orderUpdates listing).mpr updated)
    · exact (saveXPathReference_spec saves).1 xpath ((mem_orderUpdates listing).mpr updated)
  · rintro ⟨⟨resolved, orders⟩, passes, evaluates⟩
    have listing : orderUpdates env items target =
        .ok (resolved.filter (mentions (updatePaths items))) :=
      except_bind_eq_ok.mpr ⟨resolved, orders, rfl⟩
    obtain ⟨saved, saves⟩ := exists_saveXPathReference_eq_ok (fun xpath member =>
      evaluates xpath ((mem_orderUpdates listing).mp member)) index
    have checked : checkUpdates env target (resolved.filter (mentions (updatePaths items))) =
        .ok ⟨⟩ := checkUpdates_eq_ok.mpr fun xpath member =>
      passes xpath ((mem_orderUpdates listing).mp member)
    exact ⟨(resolved.filter (mentions (updatePaths items)), saved), except_bind_eq_ok.mpr
      ⟨_, listing, except_bind_eq_ok.mpr ⟨⟨⟩, checked, except_bind_eq_ok.mpr ⟨saved, saves, rfl⟩⟩⟩⟩

instance : Decidable (UpdatesPass env items target) :=
  decidable_of_iff ((planUpdate env items target []).toOption.isSome = true) <|
    (Option.isSome_iff_exists.trans (exists_congr fun _ => mem_toOption)).trans
      (exists_planUpdate_eq_ok_iff [])

end Update

section Follow

/-- The update of a patch that leads to a tree completes: it passes there, and its messages, which
follow those of the deletions, are answered. -/
structure UpdateCompletes (env : Env) (site : Site) (jconfig : Json) (items : List DiffItem)
    (before : Draft) (document : Json) (target : Node) : Prop where
  passes : UpdatesPass env items target
  posted : Replied env (updateAction env jconfig document) (updatedNodes env items target)
    (before.posts.length + messageCount (deleteAction env site.configFile)
      (removedNodes env items before.nodeConfig))

instance (env : Env) (site : Site) (jconfig : Json) (items : List DiffItem) (before : Draft)
    (document : Json) (target : Node) :
    Decidable (UpdateCompletes env site jconfig items before document target) :=
  decidable_of_iff (_ ∧ _) ⟨fun ⟨passes, posted⟩ => ⟨passes, posted⟩,
    fun ⟨passes, posted⟩ => ⟨passes, posted⟩⟩

variable {env : Env} {site : Site} {patch jconfig document : Json} {items : List DiffItem}
  {before : Draft} {target : Node}

theorem updates_iff {removal : Removal} {between : Draft} {ordered : List Str}
    {saved : References}
    (prepared : Prepared env items removal between document target ordered saved) :
    (∃ log, postUpdates env target jconfig document [] ordered between.posts = .ok ⟨⟩ log) ↔
      Replied env (updateAction env jconfig document) (updatedNodes env items target)
        between.posts.length := by
  rw [postUpdates_eq, exists_postEach_eq_ok_iff]
  have same := update_perm prepared
  exact ⟨fun replied => replied.perm same, fun replied => replied.perm same.symm⟩

/-- The routine whose patch leads to a tree returns exactly where it comes to the edit and
completes the update. -/
theorem exists_routine_eq_ok_iff
    (leads : Leads env patch jconfig before.nodeConfig items document target)
    (ordered : before.nodeConfig.Ordered) :
    (∃ json_config after, fMakeCandidateConfigInternal env site patch jconfig before =
        .ok json_config after) ↔
      UpdateBegins env site patch jconfig items before ∧
        UpdateCompletes env site jconfig items before document target := by
  constructor
  · rintro ⟨json_config, after, returned⟩
    obtain ⟨course, rfl, rfl⟩ := Course.routine_eq_ok_iff.mp returned
    obtain ⟨listed, same, edited⟩ := leads.course ordered course
    subst listed same edited
    have begins : UpdateBegins env site patch jconfig course.items before :=
      (updateBegins_iff course.begun).mpr ⟨_, course.deleted⟩
    refine ⟨begins, (exists_planUpdate_eq_ok_iff _).mp ⟨_, course.prepared.planned⟩, ?_⟩
    have replied := (updates_iff course.prepared).mp ⟨_, course.updated⟩
    have sent := course.deleted
    rw [postDeletions_eq] at sent
    have count := ((removal_perm course.begun.planned course.begun.parsed).filter fun xpath =>
      (deleteAction env site.configFile xpath).toOption.join.isSome).length_eq
    rw [length_of_postEach sent] at replied
    unfold messageCount at replied ⊢
    rw [count] at replied
    exact replied
  · rintro ⟨begins, passes, posted⟩
    obtain ⟨removal, index, log, begun, deleted, sent⟩ := begins.begun
    obtain ⟨_, edits⟩ := leads.prepared ordered begun
    obtain ⟨plan, planned⟩ := (exists_planUpdate_eq_ok_iff index).mpr passes
    have prepared : Prepared env items removal ⟨before.nodeConfig, index, log⟩ document target plan.1
        plan.2 := ⟨edits, planned⟩
    rw [← sent] at posted
    obtain ⟨last, updated⟩ : ∃ last, postUpdates env target jconfig document [] plan.1 log =
        .ok ⟨⟩ last := (updates_iff prepared).mpr posted
    exact ⟨document, _, routine_eq_ok.mpr ⟨items, removal, index, log, begun, deleted,
      performUpdate_eq_ok.mpr ⟨target, plan.1, plan.2, last, prepared, updated, rfl⟩⟩⟩

/-- A call that comes to the edit follows its patch: it leads to some tree. -/
def Follows (env : Env) (site : Site) (patch jconfig : Json) (before : Draft) : Prop :=
  ∀ items, UpdateBegins env site patch jconfig items before →
    ∃ document target, Leads env patch jconfig before.nodeConfig items document target

/-- A call comes to the edit, which leads to another tree, and does not complete its update: a
check fails, a reference cannot be evaluated, or a message is not answered. -/
def StopsEdited (env : Env) (site : Site) (patch jconfig : Json) (before : Draft) : Prop :=
  ∃ items document target, UpdateBegins env site patch jconfig items before ∧
    Leads env patch jconfig before.nodeConfig items document target ∧
    target ≠ before.nodeConfig ∧
    ¬ UpdateCompletes env site jconfig items before document target

/-- A routine that follows its patch halts with another tree exactly where it stops after the
edit. -/
theorem haltsEdited_iff {reason : Halt} {after : Draft}
    (follows : Follows env site patch jconfig before) (ordered : before.nodeConfig.Ordered)
    (halted : fMakeCandidateConfigInternal env site patch jconfig before = .error reason after) :
    HaltsEdited env site patch jconfig before ↔ StopsEdited env site patch jconfig before := by
  constructor
  · rintro ⟨items, removal, index, log, cause, between, begun, posted, updated, differs⟩
    have begins : UpdateBegins env site patch jconfig items before :=
      (updateBegins_iff begun).mpr ⟨log, posted⟩
    obtain ⟨document, target, leads⟩ := follows items begins
    obtain ⟨_, edits⟩ := leads.prepared ordered begun
    rw [edits, final_ok] at differs
    refine ⟨items, document, target, begins, leads, differs, fun completes => ?_⟩
    obtain ⟨_, _, returned⟩ := (exists_routine_eq_ok_iff leads ordered).mpr ⟨begins, completes⟩
    cases halted.symm.trans returned
  · rintro ⟨items, document, target, begins, leads, differs, _⟩
    obtain ⟨removal, index, log, begun, posted, _⟩ := begins.begun
    obtain ⟨_, edits⟩ := leads.prepared ordered begun
    rcases routine_eq_error begun halted with ⟨_, unanswered, _⟩ |
      ⟨sent, cause, between, posted', updated, _⟩
    · cases posted.symm.trans unanswered
    · refine ⟨items, removal, index, sent, cause, between, begun, posted', updated, ?_⟩
      rw [edits, final_ok]
      exact differs

end Follow

end FlexConfig
