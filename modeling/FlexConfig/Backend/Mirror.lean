import FlexConfig.Backend.Compensation

/-! # What the backend holds

The backend is meant to hold the items of the configuration in force: of the candidate
while one is pending, of the running configuration otherwise. A call that removes exactly
the nodes that vanish, with messages that name their items, and updates every node whose
item is new or another one keeps it so.
-/

namespace FlexConfig

open Procedure ItemStore

instance (jconfig : Json) (xpath : Str) : Decidable (HasPath jconfig xpath) :=
  match parsed : Json.Pointer.parse xpath with
  | .error _ => isFalse fun ⟨_, other, _⟩ => by cases parsed.symm.trans other
  | .ok pointer => decidable_of_iff (jconfig.containsPointer pointer = .ok true)
      ⟨fun contains => ⟨pointer, parsed, contains⟩, fun ⟨_, other, contains⟩ => by
        cases parsed.symm.trans other
        exact contains⟩

/-- What the messages of a call need in order to take the backend from one configuration to
another: no two nodes share an address; the removed nodes are those that vanish, and their
deletions name their items; the updated nodes are nodes of the other configuration, posted with
their items there, and any other node of it was there with the same item; and a node that was
there is posted as replaced. -/
structure BackendFits (env : Env) (config_file : Option Json) (source target : Configuration)
    (base result : Json) (removed updated : List Str) : Prop where
  separate : Separate env source.tree ∧ Separate env target.tree
  removes : ∀ xpath ∈ removed, xpath ∈ xpathsOf source.tree ∧ xpath ∉ xpathsOf target.tree
  vanishes : ∀ xpath ∈ xpathsOf source.tree, xpath ∉ xpathsOf target.tree → xpath ∈ removed
  deletes : ∀ xpath ∈ removed, Deletes env config_file source.jconfig xpath
  updates : ∀ xpath ∈ updated, xpath ∈ xpathsOf target.tree ∧
    itemOf env result xpath = itemOf env target.jconfig xpath
  keeps : ∀ xpath ∈ xpathsOf target.tree, xpath ∉ updated →
    xpath ∈ xpathsOf source.tree ∧ itemOf env target.jconfig xpath = itemOf env source.jconfig xpath
  replaces : ∀ xpath ∈ updated, xpath ∈ xpathsOf source.tree →
    addressOf env xpath = some (.own xpath) → HasPath base xpath

instance (env : Env) (config_file : Option Json) (source target : Configuration)
    (base result : Json) (removed updated : List Str) :
    Decidable (BackendFits env config_file source target base result removed updated) :=
  @decidable_of_iff _ ((_ ∧ _ ∧ _ ∧ _) ∧ _ ∧ _ ∧ _)
    ⟨fun ⟨⟨separate, removes, vanishes, deletes⟩, updates, keeps, replaces⟩ =>
        ⟨separate, removes, vanishes, deletes, updates, keeps, replaces⟩,
      fun ⟨separate, removes, vanishes, deletes, updates, keeps, replaces⟩ =>
        ⟨⟨separate, removes, vanishes, deletes⟩, updates, keeps, replaces⟩⟩
    (@instDecidableAnd _ _ inferInstance inferInstance)

section Step

variable {env : Env} {config_file : Option Json} {source target : Configuration}
  {base result : Json} {removed updated : List Str}

theorem BackendFits.settled_deletions
    (fits : BackendFits env config_file source target base result removed updated) :
    Settled (changesAt (deleteAction env config_file) removed) := by
  intro change member other _ item inserts
  obtain ⟨xpath, listed, asks⟩ := mem_changesAt.mp member
  exact absurd inserts ((deletion_spec (fits.deletes xpath listed) asks).1 item)

theorem BackendFits.settled_updates
    (fits : BackendFits env config_file source target base result removed updated) :
    Settled (changesAt (updateAction env base result) updated) := by
  intro change member other otherMember item inserts erases
  obtain ⟨xpath, listed, asks⟩ := mem_changesAt.mp member
  obtain ⟨second, secondListed, secondAsks⟩ := mem_changesAt.mp otherMember
  have here := (update_inserts_iff asks).mp inserts
  obtain ⟨own, key⟩ := update_erases_own secondAsks erases
  have same : second = xpath := fits.separate.2.own_key (fits.updates second secondListed).1
    (fits.updates xpath listed).1 own here key
  subst same
  exact update_spares secondAsks here erases

/-- An item that is in the backend in the end is one of the new configuration. -/
theorem BackendFits.sound
    (fits : BackendFits env config_file source target base result removed updated)
    (encodes : ∀ xpath ∈ updated, ∃ message, updateAction env base result xpath = .ok message)
    {item : Str × Json} (held : item ∈ holdings env source.tree source.jconfig)
    (undeleted : ∀ change ∈ changesAt (deleteAction env config_file) removed,
      ¬ change.Erases item)
    (unreplaced : ∀ change ∈ changesAt (updateAction env base result) updated,
      ¬ change.Erases item) : item ∈ holdings env target.tree target.jconfig := by
  obtain ⟨xpath, member, here⟩ := mem_holdings.mp held
  have stays : xpath ∈ xpathsOf target.tree := by
    by_contra vanishes
    have listed := fits.vanishes xpath member vanishes
    obtain ⟨change, asks, erases⟩ := deletion_erases (fits.deletes xpath listed) here
    exact undeleted change (mem_changesAt.mpr ⟨xpath, listed, asks⟩) erases
  apply mem_holdings.mpr
  refine ⟨xpath, stays, ?_⟩
  by_cases listed : xpath ∈ updated
  · obtain ⟨address, addressed, found⟩ := Option.bind_eq_some_iff.mp here
    cases address with
    | member parent name =>
        cases found
        unfold itemOf
        rw [addressed]
        rfl
    | own path =>
        have same := own_of_addressOf addressed
        subst same
        have has := fits.replaces path listed member addressed
        rcases update_replaces (encodes path listed) addressed has (itemAt_key found) with
          unchanged | ⟨change, asks, erases⟩
        · rw [← (fits.updates path listed).2]
          exact unchanged
        · exact absurd erases (unreplaced change (mem_changesAt.mpr ⟨path, listed, asks⟩))
  · rw [(fits.keeps xpath stays listed).2]
    exact here

/-- An item of the new configuration that no update inserts was there, and has not been
erased. -/
theorem BackendFits.complete
    (fits : BackendFits env config_file source target base result removed updated)
    {item : Str × Json} {xpath : Str} (member : xpath ∈ xpathsOf target.tree)
    (here : itemOf env target.jconfig xpath = some item) (unlisted : xpath ∉ updated) :
    item ∈ holdings env source.tree source.jconfig ∧
      (∀ change ∈ changesAt (deleteAction env config_file) removed, ¬ change.Erases item) ∧
      ∀ change ∈ changesAt (updateAction env base result) updated, ¬ change.Erases item := by
  obtain ⟨before, same⟩ := fits.keeps xpath member unlisted
  have there : itemOf env source.jconfig xpath = some item := same.symm.trans here
  refine ⟨mem_holdings.mpr ⟨xpath, before, there⟩, ?_, ?_⟩
  · intro change changes erases
    obtain ⟨other, listed, asks⟩ := mem_changesAt.mp changes
    obtain ⟨otherMember, vanishes⟩ := fits.removes other listed
    obtain ⟨_, otherItem, otherHere, only⟩ := deletion_spec (fits.deletes other listed) asks
    have sameNode : other = xpath := by
      rcases only item erases with rfl | ⟨own, key⟩
      · exact fits.separate.1.item_injective otherMember before otherHere there
      · exact fits.separate.1.own_key otherMember before own there key
    subst sameNode
    exact vanishes member
  · intro change changes erases
    obtain ⟨other, listed, asks⟩ := mem_changesAt.mp changes
    obtain ⟨own, key⟩ := update_erases_own asks erases
    have sameNode : other = xpath :=
      fits.separate.2.own_key (fits.updates other listed).1 member own here key
    subst sameNode
    exact unlisted listed

/-- The messages of a call that fits take the backend from one configuration to the other. -/
theorem BackendFits.holdings
    (fits : BackendFits env config_file source target base result removed updated)
    {before between after : Log} (deleted : Sent (deleteAction env config_file) removed before between)
    (posted : Sent (updateAction env base result) updated between after)
    (mirrors : backendOf before = FlexConfig.holdings env source.tree source.jconfig) :
    backendOf after = FlexConfig.holdings env target.tree target.jconfig := by
  ext item
  rw [posted.backend, mem_applyAll_of_settled fits.settled_updates, deleted.backend,
    mem_applyAll_of_settled fits.settled_deletions, mirrors]
  constructor
  · intro present
    rcases present with ⟨change, member, inserts⟩ | ⟨kept, unreplaced⟩
    · obtain ⟨xpath, listed, asks⟩ := mem_changesAt.mp member
      obtain ⟨there, same⟩ := fits.updates xpath listed
      exact mem_holdings.mpr
        ⟨xpath, there, same.symm.trans ((update_inserts_iff asks).mp inserts)⟩
    · rcases kept with ⟨change, member, inserts⟩ | ⟨held, undeleted⟩
      · obtain ⟨xpath, listed, asks⟩ := mem_changesAt.mp member
        exact absurd inserts ((deletion_spec (fits.deletes xpath listed) asks).1 item)
      · exact fits.sound posted.encodes held undeleted unreplaced
  · intro held
    obtain ⟨xpath, member, here⟩ := mem_holdings.mp held
    by_cases listed : xpath ∈ updated
    · left
      have itemHere := (fits.updates xpath listed).2.trans here
      obtain ⟨message, encoded⟩ := posted.encodes xpath listed
      obtain ⟨change, asks⟩ := update_asks encoded itemHere
      exact ⟨change, mem_changesAt.mpr ⟨xpath, listed, asks⟩,
        (update_inserts_iff asks).mpr itemHere⟩
    · right
      obtain ⟨before, undeleted, unreplaced⟩ := fits.complete member here listed
      exact ⟨Or.inr ⟨before, undeleted⟩, unreplaced⟩

end Step

section Startup

variable {env : Env}

/-- The messages of a load put the items of the loaded configuration into the backend. -/
theorem backend_of_startup {jconfig : Json} {root : Node} {ordered : List Str} {log : Log}
    (sound : Sound env root) (resolved : NodeDependencyManager.resolve env root = .ok ordered)
    (sent : Sent (startupAction env (some jconfig)) ordered [] log) :
    backendOf log = holdings env root jconfig := by
  have asks {xpath : Str} (listed : xpath ∈ ordered) :
      changeAt (startupAction env (some jconfig)) xpath =
        (itemOf env jconfig xpath).map fun item => Change.add item.1 item.2 := by
    obtain ⟨message, encoded⟩ := sent.encodes xpath listed
    rw [← startupAction_spec encoded]
    unfold changeAt
    rw [encoded]
    cases message <;> rfl
  have adds {change : Change Str Json}
      (member : change ∈ changesAt (startupAction env (some jconfig)) ordered) :
      ∃ xpath ∈ ordered, ∃ item, itemOf env jconfig xpath = some item ∧
        change = .add item.1 item.2 := by
    obtain ⟨xpath, listed, asked⟩ := mem_changesAt.mp member
    rw [asks listed] at asked
    obtain ⟨item, here, rfl⟩ := Option.map_eq_some_iff.mp asked
    exact ⟨xpath, listed, item, here, rfl⟩
  have settled : Settled (changesAt (startupAction env (some jconfig)) ordered) := by
    intro _ _ change member item _ erases
    obtain ⟨_, _, _, _, rfl⟩ := adds member
    exact erases
  obtain ⟨_, sorted, _⟩ := resolve_spec resolved
  ext item
  rw [sent.backend, mem_applyAll_of_settled settled, mem_holdings]
  constructor
  · intro present
    rcases present with ⟨change, member, inserts⟩ | ⟨impossible, _⟩
    · obtain ⟨xpath, listed, other, here, rfl⟩ := adds member
      obtain ⟨visited, present, rfl, _⟩ :=
        sound.2.orderable_iff.mp ((sorted sound.1 xpath).mp listed)
      have same : item = other := inserts
      exact ⟨_, mem_xpathsOf.mpr ⟨visited, present, rfl⟩, same ▸ here⟩
    · exact absurd impossible (Finset.notMem_empty item)
  · intro held
    obtain ⟨xpath, member, here⟩ := held
    obtain ⟨visited, present, rfl⟩ := mem_xpathsOf.mp member
    obtain ⟨address, addressed, _⟩ := Option.bind_eq_some_iff.mp here
    have orderable : Orderable env root (XPath.toString visited.location) := by
      apply sound.2.orderable_iff.mpr
      unfold addressOf at addressed
      split at addressed
      · next schema_node looked => exact ⟨visited, present, rfl, schema_node, looked⟩
      · cases addressed
    have listed := (sorted sound.1 _).mpr orderable
    left
    refine ⟨.add item.1 item.2, mem_changesAt.mpr ⟨_, listed, ?_⟩, rfl⟩
    rw [asks listed, here]
    rfl

end Startup

section Run

variable {env : Env} {before after : Manager}

/-- The configuration in force with its document. -/
def Manager.configuration (manager : Manager) : Option Configuration :=
  if manager.isCandidateConfigReady then
    manager.candidateConfig.map fun tree => ⟨tree, manager.candidateJson⟩
  else manager.runningConfig.map fun tree => ⟨tree, manager.runningJson⟩

/-- The backend holds the items of the configuration in force. -/
structure Mirrored (env : Env) (manager : Manager) : Prop where
  running : ∃ tree, manager.runningConfig = some tree
  mirrors : ∃ configuration, manager.configuration = some configuration ∧
    backendOf manager.posts = holdings env configuration.tree configuration.jconfig

/-- A node has no action. -/
def Inactive (env : Env) (xpath : Str) : Prop :=
  ¬ HasTarget env xpath Config.PropertyName.ACTION_ON_DELETE_PATH ∧
    ¬ HasTarget env xpath Config.PropertyName.ACTION_ON_UPDATE_PATH

/-- A call has nothing to post. Where its removal passes, no removed node has an action, and its
patch leads to a tree in which the update does not pass or no updated node has an action. -/
def PostsNothing (env : Env) (patch jconfig : Json) (before : Draft) : Prop :=
  ∀ items, RemovalPasses env patch jconfig items before.nodeConfig before.references →
    (∀ xpath ∈ removedNodes env items before.nodeConfig, Inactive env xpath) ∧
      ∃ document target, Leads env patch jconfig before.nodeConfig items document target ∧
        (UpdatesPass env items target →
          ∀ xpath ∈ updatedNodes env items target, Inactive env xpath)

/-- A call with no candidate pending leads to a tree and stops where the nodes it has posted for
are compensated. -/
def IsCompensated (env : Env) (manager : Manager) (patch : Json) (root : Node) : Prop :=
  manager.isCandidateConfigReady = false ∧ manager.runningConfig = some root ∧
    (∀ xpath ∈ xpathsOf root, ∃ value, manager.runningJson.atText xpath = .ok value) ∧
    ∃ items document target,
      RemovalPasses env patch manager.runningJson items root manager.candidateReferences ∧
        Leads env patch manager.runningJson root items document target ∧
        ItemsApart env (xpathsOf root ++ xpathsOf target) ∧
        Compensates env manager items root target document

/-- The calls that keep the backend a mirror. One that makes or cancels a candidate leads to a
tree, and what its patch removes and updates fits the configuration in force and the one it leads
to. One that halts has nothing to post or, where it makes a candidate, is compensated. A
cancellation that halts does not stop with the candidate edited. -/
def MirrorKept (env : Env) (manager : Manager) : Manager.Op → Prop
  | .makeCandidateConfig patch =>
    ((∃ after, Manager.makeCandidateConfig env patch manager = .ok ⟨⟩ after) →
      ∀ root, Manager.Admitted env manager patch root → ∀ source ∈ manager.configuration,
        ∃ items document edited target,
          Leads env patch manager.runningJson root items document edited ∧
          buildTree env document = .ok target ∧
          BackendFits env manager.configFile source ⟨target, document⟩ manager.runningJson document
            (removedNodes env items root) (updatedNodes env items edited)) ∧
    ((∃ reason after, Manager.makeCandidateConfig env patch manager = .error reason after) →
      ∀ root, Manager.Admitted env manager patch root →
        PostsNothing env patch manager.runningJson (manager.runningDraft root) ∨
          IsCompensated env manager patch root)
  | .applyCandidateConfig _ => True
  | .cancelCandidateConfig =>
    ((∃ after, Manager.cancelCandidateConfig env manager = .ok ⟨⟩ after) →
      ∀ patch jconfig candidate, Manager.Cancellable env manager patch jconfig candidate →
        ∀ tree ∈ manager.runningConfig, ∃ items document edited,
          Leads env patch jconfig candidate items document edited ∧
          BackendFits env manager.configFile ⟨candidate, manager.candidateJson⟩
            ⟨tree, manager.runningJson⟩ jconfig document (removedNodes env items candidate)
            (updatedNodes env items edited)) ∧
    ((∃ reason after, Manager.cancelCandidateConfig env manager = .error reason after) →
      (∀ patch jconfig candidate, Manager.Cancellable env manager patch jconfig candidate →
        PostsNothing env patch jconfig (manager.runningDraft candidate)) ∧
      ¬ Manager.CancelStopsEdited env manager)

section Silent

variable {xpath : Str} {message : Post}

theorem deleteAction_of_inactive (inactive : Inactive env xpath) (config_file : Option Json) :
    deleteAction env config_file xpath ≠ .ok (some message) := by
  intro encoded
  have silent : changeAt (deleteAction env config_file) xpath = none :=
    changeAt_deleteAction_of_silent inactive.1
  unfold changeAt at silent
  rw [encoded] at silent
  cases silent

theorem updateAction_of_inactive (inactive : Inactive env xpath) (jconfig json_config : Json) :
    updateAction env jconfig json_config xpath ≠ .ok (some message) := by
  intro encoded
  obtain ⟨schema_node, looked, encoded⟩ := except_bind_eq_ok.mp encoded
  split at encoded
  · cases encoded
  · next server resource target =>
      exact inactive.2
        ⟨schema_node, getSchemaByXPath_of_schemaNodeAt looked, by rw [target]; rfl⟩

theorem restoreAction_of_inactive (inactive : Inactive env xpath) (running_config : Option Node)
    (running_jconfig : Json) :
    restoreAction env running_config running_jconfig xpath ≠ .ok (some message) := by
  intro encoded
  unfold restoreAction at encoded
  split at encoded
  · cases encoded
  obtain ⟨_, _, encoded⟩ := except_bind_eq_ok.mp encoded
  obtain ⟨_, _, encoded⟩ := except_bind_eq_ok.mp encoded
  obtain ⟨schema_node, looked, encoded⟩ := except_bind_eq_ok.mp encoded
  split at encoded
  · next server resource node target _ =>
      exact inactive.2
        ⟨schema_node, getSchemaByXPath_of_schemaNodeAt looked, by rw [target]; rfl⟩
  · cases encoded

end Silent

/-- A routine that has nothing to post leaves the log. -/
theorem PostsNothing.posts {patch jconfig : Json} {draft : Draft}
    (nothing : PostsNothing env patch jconfig draft) (site : Site)
    (ordered : draft.nodeConfig.Ordered) :
    (final (fMakeCandidateConfigInternal env site patch jconfig draft)).posts = draft.posts := by
  rcases begun_or_unwritten env site patch jconfig draft with
    ⟨_, unwritten⟩ | ⟨items, removal, index, begun⟩
  · rw [unwritten]
    rfl
  obtain ⟨removes, document, target, leads, updates⟩ := nothing items (begun_iff.mp ⟨_, _, begun⟩)
  have inactive {xpath : Str} (member : xpath ∈ removal.ordered) : Inactive env xpath :=
    removes xpath (mem_removedNodes.mpr ((mem_removal_iff begun.planned begun.parsed).mp member))
  have deletes (log : Log) : final (postDeletions env site [] removal.ordered log) = log := by
    rw [postDeletions_eq]
    exact postEach_of_silent (fun xpath member message =>
      deleteAction_of_inactive (inactive member) site.configFile) log
  have restores (log : Log) :
      final (rollback_removed_nodes env site removal.ordered.reverse log) = log := by
    rw [rollback_removed_nodes_eq]
    refine postMessages_of_silent (fun message member post => ?_) log
    obtain ⟨xpath, listed, rfl⟩ := List.mem_map.mp member
    exact restoreAction_of_inactive (inactive (List.mem_reverse.mp listed)) _ _
  have sends {between : Draft} {json_config : Json} {edited : Node} {listed : List Str}
      {saved : References}
      (prepared : Prepared env items removal between json_config edited listed saved)
      (same : between.nodeConfig = draft.nodeConfig) (log : Log) :
      final (postUpdates env edited jconfig json_config [] listed log) = log := by
    have edits := prepared.edits
    rw [same, (leads.prepared ordered begun).2] at edits
    cases edits
    have passes := (exists_planUpdate_eq_ok_iff _).mp ⟨_, prepared.planned⟩
    rw [postUpdates_eq]
    refine postEach_of_silent (fun xpath member message => ?_) log
    exact updateAction_of_inactive
      (updates passes xpath (mem_updatedNodes.mpr ((mem_ordered_iff prepared).mp member))) _ _
  cases ran : fMakeCandidateConfigInternal env site patch jconfig draft with
  | ok json_config after =>
      obtain ⟨course, rfl, rfl⟩ := Course.routine_eq_ok_iff.mp ran
      cases course.begun.parsed.symm.trans begun.parsed
      cases course.begun.planned.symm.trans begun.planned
      have deleted := deletes draft.posts
      rw [course.deleted, final_ok] at deleted
      have updated := sends course.prepared rfl course.deletions
      rw [course.updated, final_ok] at updated
      exact updated.trans deleted
  | error reason after =>
      rcases routine_eq_error begun ran with ⟨log, halted, rfl⟩ |
        ⟨log, cause, between, deleted, halted, ending⟩
      · have kept := deletes draft.posts
        rw [halted, final_error] at kept
        exact kept
      have kept := deletes draft.posts
      rw [deleted, final_ok] at kept
      have sent : between.posts = log := by
        rcases performUpdate_eq_error.mp halted with ⟨_, _, rfl⟩ | ⟨_, _, _, _, rfl⟩ |
          ⟨json_config, edited, listed, saved, rest, prepared, unsent, rfl⟩
        · rfl
        · rfl
        · have same := sends prepared rfl log
          rw [unsent, final_error] at same
          exact same
      rcases ending with ⟨_, _, rfl⟩ | ⟨_, rest, rfl, restored⟩
      · exact sent.trans kept
      · have same := restores between.posts
        rcases restored with failed | ⟨undone, _⟩
        · rw [failed, final_error] at same
          exact same.trans (sent.trans kept)
        · rw [undone, final_ok] at same
          exact same.trans (sent.trans kept)

/-- A call fits whichever way its nodes are listed. -/
theorem BackendFits.of_mem {config_file : Option Json} {source target : Configuration}
    {base result : Json} {removed updated others more : List Str}
    (fits : BackendFits env config_file source target base result removed updated)
    (removes : ∀ xpath, xpath ∈ others ↔ xpath ∈ removed)
    (updates : ∀ xpath, xpath ∈ more ↔ xpath ∈ updated) :
    BackendFits env config_file source target base result others more where
  separate := fits.separate
  removes := fun xpath member => fits.removes xpath ((removes xpath).mp member)
  vanishes := fun xpath member gone => (removes xpath).mpr (fits.vanishes xpath member gone)
  deletes := fun xpath member => fits.deletes xpath ((removes xpath).mp member)
  updates := fun xpath member => fits.updates xpath ((updates xpath).mp member)
  keeps := fun xpath member unlisted => fits.keeps xpath member fun listed =>
    unlisted ((updates xpath).mpr listed)
  replaces := fun xpath member => fits.replaces xpath ((updates xpath).mp member)

/-- The course of a routine that leads to a tree takes the backend from one configuration to the
other where the patch fits them. -/
theorem holdings_of_course {site : Site} {patch jconfig document : Json} {draft : Draft}
    {items : List DiffItem} {edited : Node} {source target : Configuration}
    (course : Course env site patch jconfig draft) (ordered : draft.nodeConfig.Ordered)
    (leads : Leads env patch jconfig draft.nodeConfig items document edited)
    (fits : BackendFits env site.configFile source target jconfig document
      (removedNodes env items draft.nodeConfig) (updatedNodes env items edited))
    (mirrors : backendOf draft.posts = holdings env source.tree source.jconfig) :
    backendOf course.posts = holdings env target.tree target.jconfig := by
  obtain ⟨rfl, rfl, rfl⟩ := leads.course ordered course
  have listed := fits.of_mem
    (fun xpath => (course.mem_removed_iff xpath).trans mem_removedNodes.symm)
    (fun xpath => (course.mem_updated_iff xpath).trans mem_updatedNodes.symm)
  exact listed.holdings (sent_of_postDeletions course.deleted) (sent_of_postUpdates course.updated)
    mirrors

theorem mirrored_of_making {patch : Json} (mirrored : Mirrored env before)
    (maps : MapsOrdered before) (making : Manager.Making env patch before)
    (kept : MirrorKept env before (.makeCandidateConfig patch)) :
    Mirrored env making.result := by
  obtain ⟨source, inForce, mirrors⟩ := mirrored.mirrors
  obtain ⟨items, document, edited, target, leads, built, fits⟩ :=
    kept.1 ⟨_, Manager.Making.make_eq_ok_iff.mpr ⟨making, rfl⟩⟩ making.root making.admitted source
      inForce
  have ordered := maps.root making.admitted
  obtain ⟨_, same, _⟩ := leads.course ordered making.course
  obtain ⟨_, _, _, _, reloads, _, _⟩ := Manager.reload_eq_ok.mp making.reload
  rw [same] at reloads
  cases built.symm.trans reloads
  have held := holdings_of_course making.course ordered leads fits mirrors
  rw [← same] at held
  exact ⟨mirrored.running, _, rfl, held⟩

theorem mirrored_of_cancelling (mirrored : Mirrored env before) (maps : MapsOrdered before)
    (cancelling : Manager.Cancelling env before)
    (kept : MirrorKept env before .cancelCandidateConfig) : Mirrored env cancelling.result := by
  obtain ⟨tree, running⟩ := mirrored.running
  obtain ⟨source, inForce, mirrors⟩ := mirrored.mirrors
  have pending : before.configuration = some ⟨cancelling.tree, before.candidateJson⟩ := by
    unfold Manager.configuration
    rw [if_pos cancelling.cancellable.ready, cancelling.cancellable.candidate]
    rfl
  cases inForce.symm.trans pending
  obtain ⟨items, document, edited, leads, fits⟩ :=
    kept.1 ⟨_, Manager.Cancelling.cancel_eq_ok_iff.mpr ⟨cancelling, rfl⟩⟩ cancelling.patch
      cancelling.jconfig cancelling.tree cancelling.cancellable tree running
  have ordered := maps.candidate cancelling.tree cancelling.cancellable.candidate
  have held := holdings_of_course cancelling.course ordered leads fits mirrors
  refine ⟨⟨tree, running⟩, ⟨tree, before.runningJson⟩, ?_, held⟩
  exact congrArg (Option.map fun tree => Configuration.mk tree before.runningJson) running

/-- A call that stops where it is compensated is refused with the backend as it was. -/
theorem IsCompensated.posts {patch : Json} {root : Node} {reason : Halt}
    (compensated : IsCompensated env before patch root) (mirrored : Mirrored env before)
    (maps : MapsOrdered before) (admitted : Manager.Admitted env before patch root)
    (halted : Manager.makeCandidateConfig env patch before = .error reason after)
    (answered : reason ≠ .exited) : backendOf after.posts = backendOf before.posts := by
  obtain ⟨idle, running, valued, items, document, target, passes, leads, apart, compensates⟩ :=
    compensated
  obtain ⟨configuration, inForce, mirrors⟩ := mirrored.mirrors
  have same : before.configuration = some ⟨root, before.runningJson⟩ := by
    unfold Manager.configuration
    rw [idle, running]
    rfl
  cases inForce.symm.trans same
  obtain ⟨removal, index, begun⟩ : ∃ removal index, Begun env patch before.runningJson
      (before.runningDraft root) items removal index := begun_iff.mpr passes
  have setback := setback_of_compensates (maps.root admitted) admitted ⟨running, mirrors, valued⟩
    apart leads begun compensates
  exact ((refused_restored_iff ⟨root, items, removal, index, admitted, begun⟩ halted answered).mpr
    setback).2

/-- A call that halts and has nothing to post, or is compensated, leaves the backend and the
configuration in force. -/
theorem mirrored_of_make_error {patch : Json} {reason : Halt} (mirrored : Mirrored env before)
    (maps : MapsOrdered before) (kept : MirrorKept env before (.makeCandidateConfig patch))
    (halted : Manager.makeCandidateConfig env patch before = .error reason after)
    (goesOn : Manager.goesOn (.error reason after) = true) : Mirrored env after := by
  have keeps := kept.2 ⟨reason, after, halted⟩
  have answered : reason ≠ .exited := by
    rintro rfl
    cases goesOn
  obtain ⟨configuration, inForce, mirrors⟩ := mirrored.mirrors
  rcases Manager.make_eq_error halted with rfl | ⟨root, draft, admitted, rfl, ran⟩
  · exact mirrored
  have same : backendOf draft.posts = backendOf before.posts := by
    rcases keeps root admitted with nothing | compensated
    · have posts := nothing.posts before.site (maps.root admitted)
      rcases ran with ran | ⟨_, ran, _⟩
      · rw [ran, final_error] at posts
        exact congrArg backendOf posts
      · rw [ran, final_ok] at posts
        exact congrArg backendOf posts
    · exact compensated.posts mirrored maps admitted halted answered
  exact ⟨mirrored.running, configuration, inForce, same.trans mirrors⟩

theorem mirrored_of_cancel_error {reason : Halt} (mirrored : Mirrored env before)
    (maps : MapsOrdered before) (kept : MirrorKept env before .cancelCandidateConfig)
    (halted : Manager.cancelCandidateConfig env before = .error reason after) :
    Mirrored env after := by
  obtain ⟨nothing, unedited⟩ := kept.2 ⟨reason, after, halted⟩
  by_cases cancellable : ∃ patch jconfig tree, Manager.Cancellable env before patch jconfig tree
  · obtain ⟨patch, jconfig, tree, cancellable⟩ := cancellable
    have nothing := nothing patch jconfig tree cancellable
    have ordered := maps.candidate tree cancellable.candidate
    have posts := nothing.posts before.site ordered
    rw [Manager.cancel_of_cancellable cancellable] at halted
    have follows : Follows env before.site patch jconfig (before.runningDraft tree) := by
      intro items begins
      obtain ⟨_, document, target, leads, _⟩ := nothing items begins.passes
      exact ⟨document, target, leads⟩
    have keeps {reason : Halt} {draft : Draft}
        (ran : fMakeCandidateConfigInternal env before.site patch jconfig
          (before.runningDraft tree) = .error reason draft) :
        draft.nodeConfig = tree ∧ draft.posts = before.posts := by
      refine ⟨(routine_error_keeps_tree_iff ran).mpr fun edited => unedited ⟨patch, jconfig, tree,
        cancellable, (haltsEdited_iff follows ordered ran).mp edited⟩, ?_⟩
      rw [ran, final_error] at posts
      exact posts
    have again {manager : Manager} (running : manager.runningConfig = before.runningConfig)
        (candidate : manager.candidateConfig = some tree)
        (document : manager.candidateJson = before.candidateJson)
        (ready : manager.isCandidateConfigReady = before.isCandidateConfigReady)
        (log : manager.posts = before.posts) : Mirrored env manager := by
      obtain ⟨configuration, inForce, mirrors⟩ := mirrored.mirrors
      refine ⟨running ▸ mirrored.running, configuration, ?_, log ▸ mirrors⟩
      unfold Manager.configuration at inForce ⊢
      rw [ready, candidate, ← cancellable.candidate, document]
      rw [if_pos cancellable.ready] at inForce ⊢
      exact inForce
    split at halted
    · cases halted
    · next draft ran =>
        obtain ⟨kept, log⟩ := keeps ran
        cases halted
        exact again rfl (congrArg some kept) rfl rfl log
    · next reason draft _ ran =>
        obtain ⟨kept, log⟩ := keeps ran
        cases halted
        exact again rfl (congrArg some kept) rfl rfl log
  · obtain ⟨_, unchanged⟩ := Manager.cancel_of_not_cancellable cancellable
    rw [unchanged] at halted
    cases halted
    exact mirrored

theorem mirrored_of_apply {files : FileOutcome} (mirrored : Mirrored env before) :
    Mirrored env (final (Manager.applyCandidateConfig files before)) := by
  rcases Manager.apply_cases files before with ⟨reason, halted⟩ | ⟨ready, _, applied⟩
  · rw [halted]
    exact mirrored
  · rw [applied]
    obtain ⟨configuration, inForce, mirrors⟩ := mirrored.mirrors
    unfold Manager.configuration at inForce
    rw [if_pos ready] at inForce
    obtain ⟨tree, pending, _⟩ := Option.map_eq_some_iff.mp inForce
    exact ⟨⟨tree, pending⟩, configuration, inForce, mirrors⟩

theorem mirrored_of_step {op : Manager.Op} (mirrored : Mirrored env before)
    (maps : MapsOrdered before) (kept : MirrorKept env before op)
    (step : Manager.Step env before op after) : Mirrored env after := by
  obtain ⟨goes, rfl⟩ := step
  cases op with
  | makeCandidateConfig patch =>
      change Manager.goesOn (Manager.makeCandidateConfig env patch before) = true at goes
      change Mirrored env (final (Manager.makeCandidateConfig env patch before))
      cases made : Manager.makeCandidateConfig env patch before with
      | ok _ next =>
          obtain ⟨making, rfl⟩ := Manager.Making.make_eq_ok_iff.mp made
          exact mirrored_of_making mirrored maps making kept
      | error reason next =>
          rw [made] at goes
          exact mirrored_of_make_error mirrored maps kept made goes
  | applyCandidateConfig files => exact mirrored_of_apply mirrored
  | cancelCandidateConfig =>
      change Mirrored env (final (Manager.cancelCandidateConfig env before))
      cases cancelled : Manager.cancelCandidateConfig env before with
      | ok _ next =>
          obtain ⟨cancelling, rfl⟩ := Manager.Cancelling.cancel_eq_ok_iff.mp cancelled
          exact mirrored_of_cancelling mirrored maps cancelling kept
      | error reason next => exact mirrored_of_cancel_error mirrored maps kept cancelled

theorem mirrored_of_loaded (loaded : Manager.Loaded env after)
    (sound : ∀ tree ∈ after.runningConfig, Sound env tree) : Mirrored env after := by
  obtain ⟨jconfig, log, loaded⟩ := loaded
  obtain ⟨reloaded, between, attempted, loaded⟩ := bind_eq_ok.mp loaded
  obtain ⟨_, rfl⟩ := attempt_eq_ok.mp attempted
  obtain ⟨_, posts, performed, loaded⟩ := bind_eq_ok.mp loaded
  rw [get_bind] at loaded
  cases loaded
  obtain ⟨ordered, _, attempted, performed⟩ := bind_eq_ok.mp performed
  obtain ⟨resolved, rfl⟩ := attempt_eq_ok.mp attempted
  obtain ⟨_, _, attempted, posted⟩ := bind_eq_ok.mp performed
  obtain ⟨_, rfl⟩ := attempt_eq_ok.mp attempted
  have held := backend_of_startup (sound reloaded.1 rfl) resolved (sent_of_postStartup posted)
  exact ⟨⟨reloaded.1, rfl⟩, ⟨reloaded.1, jconfig⟩, rfl, held⟩

/-- In every state that calls which keep the mirror have led to since the load of a sound
configuration, the backend holds exactly the items of the configuration in force. -/
theorem backend_mirrors_of_run {first last : Manager} (loaded : Manager.Loaded env first)
    (sound : ∀ tree ∈ first.runningConfig, Sound env tree)
    (run : Relation.ReflTransGen (Guarded (Manager.Step env) (MirrorKept env)) first last) :
    ∃ configuration, last.configuration = some configuration ∧
      backendOf last.posts = holdings env configuration.tree configuration.jconfig := by
  have preserved : ∀ before op after, MapsOrdered before ∧ Mirrored env before →
      MirrorKept env before op → Manager.Step env before op after →
        MapsOrdered after ∧ Mirrored env after :=
    fun _ _ _ invariant kept step => ⟨mapsOrdered_of_step invariant.1 step,
      mirrored_of_step invariant.2 invariant.1 kept step⟩
  obtain ⟨_, mirrored⟩ := invariant_of_run _ preserved
    ⟨mapsOrdered_of_loaded loaded, mirrored_of_loaded loaded sound⟩ run
  exact mirrored.mirrors

end Run

end FlexConfig

namespace FlexConfig.Sample

open Procedure

/-- A port and a setting are added and another setting is changed. -/
def addPort : Json := .array [
  operation "add" "/port/p2" (some (object [("mac", text "y")])),
  operation "replace" "/set/a" (some (text "2")),
  operation "add" "/set/b" (some (text "3"))]

/-- A port and a setting are taken away. -/
def removePort : Json := .array [operation "remove" "/port/p1" none,
  operation "remove" "/set/b" none]

/-- A test for calls that return and keep the backend a mirror. -/
def keepsMirror (env : Env) (manager : Manager) : Manager.Op → Bool
  | .makeCandidateConfig patch =>
    decide (∃ making ∈ Manager.Making.find env patch manager, ∀ source ∈ manager.configuration,
      Leads env patch manager.runningJson making.root making.course.items
          making.course.json_config making.course.edited ∧
        BackendFits env manager.configFile source ⟨making.reloaded.1, making.course.json_config⟩
          manager.runningJson making.course.json_config
          (removedNodes env making.course.items making.root)
          (updatedNodes env making.course.items making.course.edited))
  | .applyCandidateConfig _ => true
  | .cancelCandidateConfig =>
    decide (∃ cancelling ∈ Manager.Cancelling.find env manager, ∀ tree ∈ manager.runningConfig,
      Leads env cancelling.patch cancelling.jconfig cancelling.tree cancelling.course.items
          cancelling.course.json_config cancelling.course.edited ∧
        BackendFits env manager.configFile ⟨cancelling.tree, manager.candidateJson⟩
          ⟨tree, manager.runningJson⟩ cancelling.jconfig cancelling.course.json_config
          (removedNodes env cancelling.course.items cancelling.tree)
          (updatedNodes env cancelling.course.items cancelling.course.edited))

theorem keepsMirror_sound {env : Env} (manager : Manager) (op : Manager.Op)
    (keeps : keepsMirror env manager op = true) : MirrorKept env manager op := by
  cases op with
  | makeCandidateConfig patch =>
      obtain ⟨making, _, fits⟩ := of_decide_eq_true keeps
      have returns := Manager.Making.make_eq_ok_iff.mpr ⟨making, rfl⟩
      refine ⟨fun _ root admitted source inForce => ?_, fun halts => ?_⟩
      · obtain ⟨other, running', rfl⟩ := admitted.running
        obtain ⟨made, running'', same⟩ := making.admitted.running
        cases running'.symm.trans running''
        obtain ⟨_, _, _, _, built, _, _⟩ := Manager.reload_eq_ok.mp making.reload
        obtain ⟨leads, fits⟩ := fits source inForce
        rw [same]
        exact ⟨_, _, _, _, leads, built, fits⟩
      · obtain ⟨reason, after, halted⟩ := halts
        cases returns.symm.trans halted
  | applyCandidateConfig files => exact trivial
  | cancelCandidateConfig =>
      obtain ⟨cancelling, _, fits⟩ := of_decide_eq_true keeps
      have returns := Manager.Cancelling.cancel_eq_ok_iff.mpr ⟨cancelling, rfl⟩
      refine ⟨fun _ patch jconfig candidate cancellable tree running => ?_, fun halts => ?_⟩
      · cases cancelling.cancellable.rollback.symm.trans cancellable.rollback
        cases cancelling.cancellable.candidate.symm.trans cancellable.candidate
        exact ⟨_, _, _, fits tree running⟩
      · obtain ⟨reason, after, halted⟩ := halts
        cases returns.symm.trans halted

/-- The calls of the sample run. -/
def mirrorOps : List Manager.Op :=
  [.makeCandidateConfig addPort, .applyCandidateConfig .success, .makeCandidateConfig removePort,
    .cancelCandidateConfig]

/-- The backend is a mirror after a candidate is applied, and another one made and cancelled. -/
theorem backend_mirrors_of_run_cancelled :
    ∃ first ∈ Manager.reached settingsAndPorts settingsAndPortsConfig [],
      ∃ last ∈ Manager.afterAdmitted settingsAndPorts (keepsMirror settingsAndPorts) mirrorOps
          first,
        ∃ configuration ∈ last.configuration, backendOf last.posts =
          holdings settingsAndPorts configuration.tree configuration.jconfig := by
  have runs : ∃ first ∈ returned (Manager.load settingsAndPorts settingsAndPortsConfig []),
      (∀ tree ∈ first.1.runningConfig, Sound settingsAndPorts tree) ∧
        (Manager.afterAdmitted settingsAndPorts (keepsMirror settingsAndPorts) mirrorOps
          first.1).isSome := by
    decide +kernel
  obtain ⟨first, loads, sound, reaches⟩ := runs
  obtain ⟨last, reaches⟩ := Option.isSome_iff_exists.mp reaches
  have loaded := mem_returned.mp loads
  have starts : first.1 ∈ Manager.reached settingsAndPorts settingsAndPortsConfig [] := by
    unfold Manager.reached
    rw [loaded]
    rfl
  obtain ⟨configuration, inForce, mirrors⟩ := backend_mirrors_of_run ⟨_, _, loaded⟩ sound
    (Manager.run_of_afterAdmitted keepsMirror_sound reaches)
  exact ⟨first.1, starts, last, reaches, configuration, inForce, mirrors⟩

/-- When a candidate is made anew while one is pending, the backend keeps what was posted for
the earlier one. -/
theorem backend_keeps_earlier_candidate :
    ∃ last ∈ Manager.reached settingsAndPorts settingsAndPortsConfig
        [.makeCandidateConfig (.array [operation "add" "/set/b" (some (text "3"))]),
          .makeCandidateConfig (.array [operation "add" "/set/c" (some (text "4"))])],
      Manager.Reachable settingsAndPorts last ∧ ∃ configuration ∈ last.configuration,
        backendOf last.posts ≠
          holdings settingsAndPorts configuration.tree configuration.jconfig := by
  have keeps : ∃ last ∈ Manager.reached settingsAndPorts settingsAndPortsConfig
      [.makeCandidateConfig (.array [operation "add" "/set/b" (some (text "3"))]),
        .makeCandidateConfig (.array [operation "add" "/set/c" (some (text "4"))])],
      ∃ configuration ∈ last.configuration, backendOf last.posts ≠
        holdings settingsAndPorts configuration.tree configuration.jconfig := by
    decide +kernel
  obtain ⟨last, reaches, configuration, inForce, differs⟩ := keeps
  exact ⟨last, reaches, Manager.reachedBy_of_reached (fun _ _ _ => trivial) reaches,
    configuration, inForce, differs⟩

end FlexConfig.Sample
