import FlexConfig.Foundation.Insertion
import FlexConfig.Schema.Lookup
import Mathlib.Data.Char
import Mathlib.Data.List.Lex

/-! # The reference index

For every target path the manager remembers the paths of the nodes that refer to
it. The index is extended for the nodes of an update and cleared of the nodes of a
removal; a removal is refused while a removed target still has a source.
-/

namespace FlexConfig

/-- For every target, in path order, the set of its sources. -/
abbrev References := List (Str × List Str)

namespace References

/-- The sources of a target. -/
def sources (index : References) (target : Str) : List Str := (Keyed.find target index).getD []

/-- Record a source of a target. -/
def record (index : References) (target source : Str) : References :=
  Keyed.insert target (Keyed.add source (index.sources target)) index

/-- Take nodes out of every set of sources. -/
def dropSources (removed : List Str) (index : References) : References :=
  index.map fun entry => (entry.1, entry.2.filter fun source => source ∉ removed)

theorem mem_sources_record {index : References} {target source query node : Str} :
    node ∈ (index.record target source).sources query ↔
      (query = target ∧ node = source) ∨ node ∈ index.sources query := by
  unfold record sources
  rw [Keyed.find_insert]
  by_cases same : query = target
  · subst same
    simp [Keyed.mem_add]
  · simp [same]

theorem find_dropSources (removed : List Str) (index : References) (target : Str) :
    Keyed.find target (index.dropSources removed) =
      (Keyed.find target index).map fun sources => sources.filter fun source => source ∉ removed := by
  induction index with
  | nil => rfl
  | cons entry rest ih =>
      obtain ⟨other, old⟩ := entry
      change Keyed.find target ((other, _) :: dropSources removed rest) = _
      rw [Keyed.find_cons, Keyed.find_cons, ih]
      split <;> rfl

theorem mem_sources_dropSources {removed : List Str} {index : References} {target node : Str} :
    node ∈ (index.dropSources removed).sources target ↔
      node ∈ index.sources target ∧ node ∉ removed := by
  unfold sources
  rw [find_dropSources]
  cases Keyed.find target index with
  | none => simp
  | some nodes => simp [List.mem_filter]

end References

variable (env : Env)

/-- The path one reference attribute denotes for the node at a location; nothing where
the attribute names no node. -/
def evaluateReference (location : Location) (xpath_reference : Str) : Attempt (Option Str) := do
  let ref ←
    if Text.contains XPath.ITEM_NAME_SUBSCRIPT xpath_reference then do
      let evaluated_xpath_ref ← XPath.evaluateXPath location xpath_reference
      pure (if evaluated_xpath_ref = [] then xpath_reference else evaluated_xpath_ref)
    else pure xpath_reference
  if Text.contains XPath.REFERENCE_TOKEN ref then
    return some (Text.replaceAll XPath.REFERENCE_TOKEN (XPath.nameOf location) ref)
  else return none

/-- The targets a node refers to in a tree, in the order they are recorded. -/
def referenceTargets (root_config : Node) (xpath : Str) : Attempt (List Str) := do
  match ← env.getSchemaByXPath xpath with
  | none => return []
  | some schema_node =>
    match XPath.select root_config xpath with
    | none => return []
    | some node => do
      let references ← (schema_node.FindAttr Config.PropertyName.REFERENCE).mapM
        (evaluateReference node.location)
      return (references.filterMap id).filter fun ref_xpath =>
        (XPath.select root_config ref_xpath).isSome

/-- `Config::Manager::saveXPathReference`. -/
def saveXPathReference (ordered_nodes_by_xpath : List Str) (root_config : Node)
    (index : References) : Attempt References :=
  ordered_nodes_by_xpath.foldlM (fun index xpath => do
    let targets ← referenceTargets env root_config xpath
    return targets.foldl (fun index target => index.record target xpath) index) index

/-- `Config::Manager::removeXPathReference`. The paths erased from the index in the end
are those it does not have as targets. -/
def removeXPathReference (ordered_nodes_by_xpath : List Str) (index : References) :
    Attempt References :=
  let candidate := index.dropSources ordered_nodes_by_xpath
  if ordered_nodes_by_xpath.any fun xpath => candidate.sources xpath ≠ [] then .error .rejected
  else
    .ok ((ordered_nodes_by_xpath.filter fun xpath => (Keyed.find xpath candidate).isNone).foldl
      (fun index xpath => Keyed.erase xpath index) candidate)

section Remove

theorem erase_of_find_none {index : References} {target : Str}
    (absent : Keyed.find target index = none) : Keyed.erase target index = index := by
  induction index with
  | nil => rfl
  | cons entry rest ih =>
      obtain ⟨other, old⟩ := entry
      rw [Keyed.find_cons] at absent
      unfold Keyed.erase
      split at absent
      · cases absent
      · next differs => rw [if_neg differs, ih absent]

theorem foldl_erase_absent {index : References} {targets : List Str}
    (absent : ∀ target ∈ targets, Keyed.find target index = none) :
    targets.foldl (fun index xpath => Keyed.erase xpath index) index = index := by
  induction targets with
  | nil => rfl
  | cons target rest ih =>
      rw [List.foldl_cons, erase_of_find_none (absent target List.mem_cons_self)]
      exact ih fun other member => absent other (List.mem_cons_of_mem _ member)

/-- A removal succeeds exactly when no removed target keeps a source, and then it has
taken the removed nodes out of every set of sources. -/
theorem removeXPathReference_eq_ok {ordered : List Str} {index after : References} :
    removeXPathReference ordered index = .ok after ↔
      (∀ xpath ∈ ordered, (index.dropSources ordered).sources xpath = []) ∧
        after = index.dropSources ordered := by
  have absent : ∀ target ∈ ordered.filter fun xpath =>
      (Keyed.find xpath (index.dropSources ordered)).isNone,
      Keyed.find target (index.dropSources ordered) = none := by
    intro target member
    exact Option.isNone_iff_eq_none.mp (List.mem_filter.mp member).2
  have erased := foldl_erase_absent absent
  unfold removeXPathReference
  simp only [erased]
  split
  · next refused =>
      rw [List.any_eq_true] at refused
      obtain ⟨xpath, member, kept⟩ := refused
      constructor
      · intro impossible
        cases impossible
      · rintro ⟨clear, _⟩
        exact absurd (clear xpath member) (of_decide_eq_true kept)
  · next clear =>
      rw [List.any_eq_true, not_exists] at clear
      constructor
      · intro returned
        cases returned
        refine ⟨fun xpath member => ?_, rfl⟩
        by_contra kept
        exact clear xpath ⟨member, decide_eq_true kept⟩
      · rintro ⟨_, rfl⟩
        rfl

/-- A removal is never answered in another way than by success or refusal. -/
theorem removeXPathReference_eq_error {ordered : List Str} {index : References} {reason : Halt}
    (halted : removeXPathReference ordered index = .error reason) : reason = .rejected := by
  unfold removeXPathReference at halted
  simp only at halted
  split at halted
  · cases halted
    rfl
  · cases halted

/-- Taking nodes out changes the index exactly when one of them is a source. -/
theorem dropSources_eq_self_iff {removed : List Str} {index : References} :
    index.dropSources removed = index ↔
      ∀ entry ∈ index, ∀ source ∈ entry.2, source ∉ removed := by
  unfold References.dropSources
  induction index with
  | nil => simp
  | cons entry rest ih =>
      rw [List.map_cons, List.cons_eq_cons, ih, Prod.ext_iff, List.forall_mem_cons]
      simp [List.filter_eq_self]

end Remove

section Record

variable {env : Env} {root_config : Node}

/-- The targets that saving the references of a node records. -/
def recorded (env : Env) (root_config : Node) (xpath : Str) : List Str :=
  (referenceTargets env root_config xpath).toOption.getD []

theorem mem_sources_record_all {targets : List Str} {index : References}
    {source query node : Str} :
    node ∈ (targets.foldl (fun index target => index.record target source) index).sources query ↔
      (query ∈ targets ∧ node = source) ∨ node ∈ index.sources query := by
  induction targets generalizing index with
  | nil => simp
  | cons target rest ih =>
      rw [List.foldl_cons, ih, References.mem_sources_record, List.mem_cons, or_and_right, or_assoc,
        or_left_comm]

/-- Saving adds what is recorded for the nodes, and can evaluate the references of each. -/
theorem saveXPathReference_spec {ordered : List Str} {index saved : References}
    (saves : saveXPathReference env ordered root_config index = .ok saved) :
    (∀ xpath ∈ ordered, ∃ targets, referenceTargets env root_config xpath = .ok targets) ∧
      ∀ source target, source ∈ saved.sources target ↔
        (source ∈ ordered ∧ target ∈ recorded env root_config source) ∨
          source ∈ index.sources target := by
  unfold saveXPathReference at saves
  induction ordered generalizing index with
  | nil =>
      cases saves
      simp
  | cons xpath rest ih =>
      rw [List.foldlM_cons] at saves
      obtain ⟨next, extended, saves⟩ := Procedure.except_bind_eq_ok.mp saves
      obtain ⟨targets, evaluated, finished⟩ := Procedure.except_bind_eq_ok.mp extended
      cases finished
      obtain ⟨others, members⟩ := ih saves
      have here : recorded env root_config xpath = targets := by
        unfold recorded
        rw [evaluated]
        rfl
      constructor
      · exact List.forall_mem_cons.mpr ⟨⟨targets, evaluated⟩, others⟩
      · intro source target
        rw [members, mem_sources_record_all, List.mem_cons]
        by_cases same : source = xpath
        · subst same
          rw [here]
          tauto
        · simp [same]

theorem mem_keys_record_all {targets : List Str} {index : References} {source query : Str} :
    query ∈ Keyed.keys
        (targets.foldl (fun (index : References) target => index.record target source) index) ↔
      query ∈ targets ∨ query ∈ Keyed.keys index := by
  induction targets generalizing index with
  | nil => simp
  | cons target rest ih =>
      rw [List.foldl_cons, ih, References.record, Keyed.mem_keys_insert, List.mem_cons, or_assoc,
        or_left_comm]

/-- The targets after saving are those there were and those that are recorded. -/
theorem mem_keys_save {ordered : List Str} {index saved : References}
    (saves : saveXPathReference env ordered root_config index = .ok saved) {query : Str} :
    query ∈ Keyed.keys saved ↔
      (∃ source ∈ ordered, query ∈ recorded env root_config source) ∨
        query ∈ Keyed.keys index := by
  unfold saveXPathReference at saves
  induction ordered generalizing index with
  | nil =>
      cases saves
      simp
  | cons xpath rest ih =>
      rw [List.foldlM_cons] at saves
      obtain ⟨next, extended, saves⟩ := Procedure.except_bind_eq_ok.mp saves
      obtain ⟨targets, evaluated, finished⟩ := Procedure.except_bind_eq_ok.mp extended
      cases finished
      have here : recorded env root_config xpath = targets := by
        unfold recorded
        rw [evaluated]
        rfl
      rw [ih saves, mem_keys_record_all, List.exists_mem_cons_iff, here, or_left_comm, or_assoc]

/-- References can be saved when those of each node can be evaluated. -/
theorem exists_saveXPathReference_eq_ok {ordered : List Str}
    (evaluates : ∀ xpath ∈ ordered, ∃ targets, referenceTargets env root_config xpath = .ok targets)
    (index : References) :
    ∃ saved, saveXPathReference env ordered root_config index = .ok saved := by
  unfold saveXPathReference
  induction ordered generalizing index with
  | nil => exact ⟨index, rfl⟩
  | cons xpath rest ih =>
      obtain ⟨⟨targets, evaluated⟩, others⟩ := List.forall_mem_cons.mp evaluates
      obtain ⟨saved, saves⟩ := ih others (targets.foldl (fun index target =>
        index.record target xpath) index)
      rw [List.foldlM_cons]
      exact ⟨saved, Procedure.except_bind_eq_ok.mpr
        ⟨_, Procedure.except_bind_eq_ok.mpr ⟨targets, evaluated, rfl⟩, saves⟩⟩

end Record

section Order

/-- The targets and the sources of each are in order, as maps and sets keep them. -/
structure References.Canonical (index : References) : Prop where
  keys : (Keyed.keys index).Pairwise (· < ·)
  sources : ∀ entry ∈ index, entry.2.Pairwise (· < ·)

variable {index other : References}

theorem canonical_nil : References.Canonical [] :=
  ⟨.nil, fun _ impossible => absurd impossible List.not_mem_nil⟩

theorem References.Canonical.record (canonical : index.Canonical) (target source : Str) :
    (index.record target source).Canonical := by
  refine ⟨Keyed.pairwise_keys_insert canonical.keys, fun entry member => ?_⟩
  rcases Keyed.mem_of_mem_insert member with rfl | old
  · refine Keyed.pairwise_add ?_
    unfold References.sources
    cases found : Keyed.find target index with
    | none => exact .nil
    | some sources => exact canonical.sources _ (Keyed.mem_of_find found)
  · exact canonical.sources entry old

theorem References.Canonical.record_all (canonical : index.Canonical) (targets : List Str)
    (source : Str) :
    (targets.foldl (fun index target => index.record target source) index).Canonical := by
  induction targets generalizing index with
  | nil => exact canonical
  | cons target rest ih => exact ih (canonical.record target source)

theorem References.Canonical.dropSources (canonical : index.Canonical) (removed : List Str) :
    (index.dropSources removed).Canonical := by
  constructor
  · have same : Keyed.keys (index.dropSources removed) = Keyed.keys index := List.map_map ..
    rw [same]
    exact canonical.keys
  · intro entry member
    obtain ⟨old, isOld, rfl⟩ := List.mem_map.mp member
    exact (canonical.sources old isOld).filter _

theorem References.Canonical.save (canonical : index.Canonical) {env : Env} {ordered : List Str}
    {root_config : Node} {saved : References}
    (saves : saveXPathReference env ordered root_config index = .ok saved) : saved.Canonical := by
  unfold saveXPathReference at saves
  induction ordered generalizing index with
  | nil =>
      cases saves
      exact canonical
  | cons xpath rest ih =>
      rw [List.foldlM_cons] at saves
      obtain ⟨next, extended, saves⟩ := Procedure.except_bind_eq_ok.mp saves
      obtain ⟨targets, _, finished⟩ := Procedure.except_bind_eq_ok.mp extended
      cases finished
      exact ih (canonical.record_all targets xpath) saves

theorem References.Canonical.remove (canonical : index.Canonical) {ordered : List Str}
    (removes : removeXPathReference ordered index = .ok other) : other.Canonical := by
  obtain ⟨_, rfl⟩ := removeXPathReference_eq_ok.mp removes
  exact canonical.dropSources ordered

/-- The sources that are listed under a target are its sources. -/
theorem References.Canonical.mem_sources_iff (canonical : index.Canonical) {source target : Str} :
    source ∈ index.sources target ↔ ∃ entry ∈ index, entry.1 = target ∧ source ∈ entry.2 := by
  unfold References.sources
  constructor
  · intro member
    cases found : Keyed.find target index with
    | none =>
        rw [found] at member
        cases member
    | some sources =>
        rw [found] at member
        exact ⟨_, Keyed.mem_of_find found, rfl, member⟩
  · rintro ⟨entry, listed, rfl, member⟩
    rw [(Keyed.find_eq_some_iff canonical.keys).mpr listed]
    exact member

/-- Indexes in order with the same targets and sources are the same. -/
theorem References.Canonical.ext (canonical : index.Canonical) (canonical' : other.Canonical)
    (keys : ∀ target, target ∈ Keyed.keys index ↔ target ∈ Keyed.keys other)
    (sources : ∀ source target, source ∈ index.sources target ↔ source ∈ other.sources target) :
    index = other := by
  refine Keyed.eq_of_find canonical.keys canonical'.keys fun target => ?_
  cases found : Keyed.find target index with
  | none =>
      have absent := Keyed.find_eq_none_iff.mp found
      exact (Keyed.find_eq_none_iff.mpr fun member => absent ((keys target).mpr member)).symm
  | some first =>
      have present := (keys target).mp (Keyed.find_isSome_iff.mp (found ▸ rfl))
      obtain ⟨second, found'⟩ := Option.isSome_iff_exists.mp (Keyed.find_isSome_iff.mpr present)
      rw [found']
      have same : ∀ source, source ∈ first ↔ source ∈ second := by
        intro source
        have both := sources source target
        unfold References.sources at both
        rw [found, found'] at both
        exact both
      have sorted := canonical.sources _ (Keyed.mem_of_find found)
      have sorted' := canonical'.sources _ (Keyed.mem_of_find found')
      refine congrArg some (List.Perm.eq_of_pairwise ?_ sorted sorted' ?_)
      · exact fun left right _ _ below above => (irrefl _ (IsTrans.trans _ _ _ below above)).elim
      · exact (List.perm_ext_iff_of_nodup (sorted.imp fun less => less.ne)
          (sorted'.imp fun less => less.ne)).mpr same

end Order

end FlexConfig
