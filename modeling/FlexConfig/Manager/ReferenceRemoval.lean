import FlexConfig.Manager.References

/-! # Clearing the reference index of removed nodes

A removal is refused while a removed target keeps a source outside the removal. Otherwise
the removed nodes are no sources any more; but those of them that are targets stay in the
index, for what is erased from it are the paths that it does not have.
-/

namespace FlexConfig

open References

variable {removed : List Str} {index : References}

/-- The index the manager holds after a call. -/
def referencesAfter (removed : List Str) (index : References) : References :=
  match removeXPathReference removed index with
  | .ok after => after
  | .error _ => index

/-- Some node of a removal is a target that keeps a source outside of it. -/
def StillReferred (removed : List Str) (index : References) : Prop :=
  ∃ xpath ∈ removed, ∃ source ∈ index.sources xpath, source ∉ removed

/-- What a removal is to do to the index. -/
structure ClearsReferences (removed : List Str) (index : References) : Prop where
  refuses_iff : (¬ ∃ after, removeXPathReference removed index = .ok after) ↔
    StillReferred removed index
  unchanged : (¬ ∃ after, removeXPathReference removed index = .ok after) →
    referencesAfter removed index = index
  no_source : ∀ after, removeXPathReference removed index = .ok after →
    ∀ target, ∀ xpath ∈ removed, xpath ∉ after.sources target
  no_target : ∀ after, removeXPathReference removed index = .ok after →
    ∀ xpath ∈ removed, xpath ∉ Keyed.keys after
  keeps : ∀ after, removeXPathReference removed index = .ok after → ∀ target source,
    target ∉ removed → source ∉ removed →
      (source ∈ after.sources target ↔ source ∈ index.sources target)
  unordered : ∀ other, other.Perm removed →
    removeXPathReference other index = removeXPathReference removed index

theorem clear_iff_not_stillReferred :
    (∀ xpath ∈ removed, (index.dropSources removed).sources xpath = []) ↔
      ¬ StillReferred removed index := by
  unfold StillReferred
  constructor
  · rintro clear ⟨xpath, member, source, refers, outside⟩
    have kept := mem_sources_dropSources.mpr ⟨refers, outside⟩
    rw [clear xpath member] at kept
    cases kept
  · intro none xpath member
    refine List.eq_nil_iff_forall_not_mem.mpr fun source kept => none ?_
    obtain ⟨refers, outside⟩ := mem_sources_dropSources.mp kept
    exact ⟨xpath, member, source, refers, outside⟩

/-- A removal is refused exactly while a removed target keeps a source outside. -/
theorem refused_iff :
    (¬ ∃ after, removeXPathReference removed index = .ok after) ↔ StillReferred removed index := by
  have succeeds : (∃ after, removeXPathReference removed index = .ok after) ↔
      ¬ StillReferred removed index := by
    rw [← clear_iff_not_stillReferred]
    exact ⟨fun ⟨_, done⟩ => (removeXPathReference_eq_ok.mp done).1,
      fun clear => ⟨_, removeXPathReference_eq_ok.mpr ⟨clear, rfl⟩⟩⟩
  rw [succeeds, not_not]

/-- Sources are dropped by membership, so that the order does not matter. -/
theorem dropSources_congr {other : List Str} (same : ∀ xpath, xpath ∈ other ↔ xpath ∈ removed)
    (index : References) : index.dropSources other = index.dropSources removed := by
  unfold References.dropSources
  refine List.map_congr_left fun entry _ => ?_
  simp only [same]

theorem removeXPathReference_of_same {other : List Str} {after : References}
    (same : ∀ xpath, xpath ∈ other ↔ xpath ∈ removed)
    (done : removeXPathReference removed index = .ok after) :
    removeXPathReference other index = .ok after := by
  obtain ⟨clear, rfl⟩ := removeXPathReference_eq_ok.mp done
  refine removeXPathReference_eq_ok.mpr ⟨fun xpath member => ?_, (dropSources_congr same index).symm⟩
  rw [dropSources_congr same]
  exact clear xpath ((same xpath).mp member)

/-- The answer depends on which nodes are removed, not on their order. -/
theorem removeXPathReference_congr {other : List Str}
    (same : ∀ xpath, xpath ∈ other ↔ xpath ∈ removed) (index : References) :
    removeXPathReference other index = removeXPathReference removed index := by
  cases done : removeXPathReference removed index with
  | ok after => exact removeXPathReference_of_same same done
  | error reason =>
      cases others : removeXPathReference other index with
      | ok after =>
          have impossible := removeXPathReference_of_same (fun xpath => (same xpath).symm) others
          cases impossible.symm.trans done
      | error otherReason =>
          rw [removeXPathReference_eq_error done, removeXPathReference_eq_error others]

theorem keys_dropSources (removed : List Str) (index : References) :
    Keyed.keys (index.dropSources removed) = Keyed.keys index := by
  unfold Keyed.keys References.dropSources
  rw [List.map_map]
  rfl

/-- The index is cleared of a removal exactly when the removal is refused or none of its nodes
is a target in the index. -/
theorem clearsReferences_iff (removed : List Str) (index : References) :
    ClearsReferences removed index ↔
      StillReferred removed index ∨ ∀ xpath ∈ removed, xpath ∉ Keyed.keys index := by
  constructor
  · intro clears
    by_cases referred : StillReferred removed index
    · exact .inl referred
    · refine .inr fun xpath member => ?_
      have done := removeXPathReference_eq_ok.mpr
        ⟨clear_iff_not_stillReferred.mpr referred, rfl⟩
      have gone := clears.no_target _ done xpath member
      rw [keys_dropSources] at gone
      exact gone
  · intro either
    refine ⟨refused_iff, fun refused => ?_, ?_, ?_, ?_, ?_⟩
    · unfold referencesAfter
      cases done : removeXPathReference removed index with
      | ok after => exact absurd ⟨after, done⟩ refused
      | error reason => rfl
    · intro after done target xpath member source
      obtain ⟨_, rfl⟩ := removeXPathReference_eq_ok.mp done
      exact (mem_sources_dropSources.mp source).2 member
    · intro after done xpath member
      obtain ⟨clear, rfl⟩ := removeXPathReference_eq_ok.mp done
      rw [keys_dropSources]
      rcases either with referred | absent
      · exact absurd referred (clear_iff_not_stillReferred.mp clear)
      · exact absent xpath member
    · intro after done target source _ outside
      obtain ⟨_, rfl⟩ := removeXPathReference_eq_ok.mp done
      rw [mem_sources_dropSources]
      exact ⟨And.left, fun refers => ⟨refers, outside⟩⟩
    · intro other reordered
      exact removeXPathReference_congr (fun _ => reordered.mem_iff) index

end FlexConfig

namespace FlexConfig.Sample

/-- A target that is removed together with its source stays in the index. -/
theorem removed_target_kept :
    removeXPathReference ["/lag/lag-1".toList, "/vlan/1".toList]
        [("/lag/lag-1".toList, ["/vlan/1".toList])] = .ok [("/lag/lag-1".toList, [])] ∧
      ¬ ClearsReferences ["/lag/lag-1".toList, "/vlan/1".toList]
        [("/lag/lag-1".toList, ["/vlan/1".toList])] := by
  have done : removeXPathReference ["/lag/lag-1".toList, "/vlan/1".toList]
      [("/lag/lag-1".toList, ["/vlan/1".toList])] = .ok [("/lag/lag-1".toList, [])] := by
    decide +kernel
  refine ⟨done, fun clears => ?_⟩
  exact clears.no_target _ done "/lag/lag-1".toList List.mem_cons_self List.mem_cons_self

end FlexConfig.Sample
