import FlexConfig.Json.Rewriting

/-! # Documents stay in order

Objects are kept in the order of their names whatever is done to a document: by access to a
missing location, which creates it, and by every operation of a patch.
-/

namespace FlexConfig.Json

open Procedure

variable {json value after : Json} {tokens : List Str}

theorem Sorted.located (sorted : json.Sorted) (found : json.atPointer tokens = .ok value) :
    value.Sorted := by
  induction tokens generalizing json with
  | nil => cases json <;> cases found <;> exact sorted
  | cons token rest ih =>
      cases json with
      | object members =>
          obtain ⟨inner, here, below⟩ := atPointer_object_cons found
          exact ih (sorted.of_find here) below
      | array elements =>
          obtain ⟨_, index, inner, _, here, below⟩ := atPointer_array_cons found
          exact ih (sorted_of_mem_elements sorted inner (List.mem_of_getElem? here)) below
      | null | bool | number | string => cases found

/-- An array stays in order when an element is put at an index, with nulls in the gap before it. -/
theorem sorted_setElement {elements : List Json} (sorted : (array elements).Sorted) (index : Nat)
    (inner : value.Sorted) : (array (setElement elements index value)).Sorted := by
  refine sortedElements_of_mem fun element member => ?_
  rcases List.mem_or_eq_of_mem_set member with old | new
  · rcases List.mem_append.mp old with present | filled
    · exact sorted_of_mem_elements sorted element present
    · rw [List.eq_of_mem_replicate filled]
      exact trivial
  · exact new ▸ inner

/-- Creating a location keeps a document in order. -/
theorem Sorted.touched (sorted : json.Sorted) (created : json.touched tokens = .ok after) :
    after.Sorted := by
  induction tokens generalizing json after with
  | nil =>
      rw [Json.touched] at created
      cases created
      exact sorted
  | cons token rest ih =>
      cases json with
      | object members =>
          rw [Json.touched] at created
          obtain ⟨inner, below, finished⟩ := except_bind_eq_ok.mp created
          cases finished
          refine sorted.insert token (ih ?_ below)
          cases here : Keyed.find token members with
          | none => exact trivial
          | some child => exact sorted.of_find here
      | array elements =>
          rw [Json.touched] at created
          obtain ⟨index, _, created⟩ := except_bind_eq_ok.mp created
          obtain ⟨inner, below, finished⟩ := except_bind_eq_ok.mp created
          cases finished
          refine sorted_setElement sorted index (ih ?_ below)
          cases here : elements[index]? with
          | none => exact trivial
          | some child => exact sorted_of_mem_elements sorted child (List.mem_of_getElem? here)
      | null =>
          rw [Json.touched] at created
          split at created
          · obtain ⟨index, _, created⟩ := except_bind_eq_ok.mp created
            obtain ⟨inner, below, finished⟩ := except_bind_eq_ok.mp created
            cases finished
            exact sorted_setElement (show (array []).Sorted from trivial) index
              (ih (show Json.null.Sorted from trivial) below)
          · obtain ⟨inner, below, finished⟩ := except_bind_eq_ok.mp created
            cases finished
            exact ⟨List.pairwise_singleton _ _, ih (show Json.null.Sorted from trivial) below, trivial⟩
      | bool _ | number _ | string _ => cases created

/-- Access that would create a location finds what is there, and leaves it. -/
theorem touched_of_atPointer (sorted : json.Sorted)
    (found : json.atPointer tokens = .ok value) :
    json.touched tokens = .ok json ∧ json.pointed tokens = .ok value := by
  induction tokens generalizing json with
  | nil => cases json <;> cases found <;> exact ⟨rfl, rfl⟩
  | cons token rest ih =>
      cases json with
      | object members =>
          obtain ⟨inner, here, below⟩ := atPointer_object_cons found
          obtain ⟨stays, points⟩ := ih (sorted.of_find here) below
          refine ⟨?_, ?_⟩
          · rw [touched, here, Option.getD_some, stays]
            exact congrArg (fun entries => Except.ok (object entries))
              (Keyed.insert_of_find sorted.1 here)
          · rw [pointed, here]
            exact points
      | array elements =>
          obtain ⟨notEnd, index, inner, indexed, here, below⟩ := atPointer_array_cons found
          obtain ⟨stays, points⟩ :=
            ih (sorted_of_mem_elements sorted inner (List.mem_of_getElem? here)) below
          obtain ⟨bound, rfl⟩ := List.getElem?_eq_some_iff.mp here
          have unchecked : uncheckedIndex token elements.length = .ok index := by
            rw [uncheckedIndex, if_neg notEnd, indexed]
          have filled : setElement elements index elements[index] = elements := by
            rw [setElement, Nat.sub_eq_zero_of_le bound, List.replicate_zero, List.append_nil]
            exact List.set_getElem_self bound
          refine ⟨?_, ?_⟩
          · rw [touched, unchecked]
            change (touched (elements[index]?.getD Json.null) rest >>= fun inner => _) = _
            rw [here, Option.getD_some, stays]
            exact congrArg (fun entries => Except.ok (array entries)) filled
          · rw [pointed, unchecked]
            change pointed (elements[index]?.getD Json.null) rest = _
            rw [here]
            exact points
      | null | bool | number | string => cases found

section Operation

theorem sorted_addMember {last : Str} (sorted : json.Sorted) (inner : value.Sorted)
    (added : addMember last value json = .ok after) : after.Sorted := by
  cases json with
  | null =>
      cases added
      exact ⟨List.pairwise_singleton _ _, inner, trivial⟩
  | object members =>
      cases added
      exact sorted.insert last inner
  | array elements =>
      have known := sorted_of_mem_elements sorted
      unfold addMember at added
      dsimp only at added
      split at added
      · cases added
        exact sortedElements_of_mem
          (List.forall_mem_append.mpr ⟨known, List.forall_mem_singleton.mpr inner⟩)
      · obtain ⟨index, _, added⟩ := except_bind_eq_ok.mp added
        split at added
        · cases added
          refine sortedElements_of_mem (List.forall_mem_append.mpr ⟨fun element member => ?_,
            List.forall_mem_cons.mpr ⟨inner, fun element member => ?_⟩⟩)
          · exact known element (List.mem_of_mem_take member)
          · exact known element (List.mem_of_mem_drop member)
        · cases added
  | bool _ | number _ | string _ => cases added

theorem sorted_eraseMember {last : Str} (sorted : json.Sorted)
    (erased : eraseMember last json = .ok after) : after.Sorted := by
  cases json with
  | object members =>
      unfold eraseMember at erased
      dsimp only at erased
      split at erased
      · cases erased
        exact sorted.erase last
      · cases erased
  | array elements =>
      obtain ⟨index, _, erased⟩ := except_bind_eq_ok.mp erased
      split at erased
      · cases erased
        refine sortedElements_of_mem fun element member => ?_
        exact sorted_of_mem_elements sorted element (List.mem_of_mem_eraseIdx member)
      · cases erased
  | null | bool _ | number _ | string _ =>
      cases erased
      exact sorted

theorem sorted_operationAdd (sorted : json.Sorted) (inner : value.Sorted)
    (added : operationAdd tokens value json = .ok after) : after.Sorted := by
  unfold operationAdd at added
  split at added
  · cases added
    exact inner
  · exact sorted.modified (fun _ _ child => sorted_addMember child inner) added

theorem sorted_operationRemove (sorted : json.Sorted)
    (removed : operationRemove tokens json = .ok after) : after.Sorted := by
  obtain ⟨last, _, removed⟩ := except_bind_eq_ok.mp removed
  exact sorted.modified (fun _ _ => sorted_eraseMember) removed

theorem required_eq_ok {member : Option Json} :
    required member = .ok value ↔ member = some value := by
  cases member with
  | none => exact iff_of_false nofun nofun
  | some found => exact ⟨fun same => congrArg some (Except.ok.inj same), fun same => same ▸ rfl⟩

/-- An operation whose value is in order keeps a document in order. -/
theorem sorted_applyItem {item : DiffItem} (sorted : json.Sorted)
    (inner : ∀ written ∈ item.value, written.Sorted) (applied : applyItem item json = .ok after) :
    after.Sorted := by
  obtain ⟨tokens, _, applied⟩ := except_bind_eq_ok.mp applied
  split at applied
  · obtain ⟨written, carries, added⟩ := except_bind_eq_ok.mp applied
    exact sorted_operationAdd sorted (inner written (required_eq_ok.mp carries)) added
  split at applied
  · exact sorted_operationRemove sorted applied
  split at applied
  · obtain ⟨written, carries, replaced⟩ := except_bind_eq_ok.mp applied
    exact sorted.rewritten (inner written (required_eq_ok.mp carries)) replaced
  split at applied
  · obtain ⟨source, _, applied⟩ := except_bind_eq_ok.mp applied
    obtain ⟨moved, found, applied⟩ := except_bind_eq_ok.mp applied
    obtain ⟨rest, removed, added⟩ := except_bind_eq_ok.mp applied
    exact sorted_operationAdd (sorted_operationRemove sorted removed) (sorted.located found) added
  split at applied
  · obtain ⟨source, _, applied⟩ := except_bind_eq_ok.mp applied
    obtain ⟨copied, found, added⟩ := except_bind_eq_ok.mp applied
    exact sorted_operationAdd sorted (sorted.located found) added
  split at applied
  · obtain ⟨expected, _, applied⟩ := except_bind_eq_ok.mp applied
    obtain ⟨found, _, applied⟩ := except_bind_eq_ok.mp applied
    split at applied
    · cases applied
      exact sorted
    · cases applied
  · cases applied

theorem sorted_applyItems {items : List DiffItem} (sorted : json.Sorted)
    (inner : ∀ item ∈ items, ∀ written ∈ item.value, written.Sorted)
    (applied : applyItems items json = .ok after) : after.Sorted := by
  induction items generalizing json with
  | nil =>
      cases applied
      exact sorted
  | cons item rest ih =>
      obtain ⟨here, later⟩ := List.forall_mem_cons.mp inner
      obtain ⟨next, first, others⟩ := except_bind_eq_ok.mp applied
      exact ih (sorted_applyItem sorted here first) later others

/-- What the operations of a document in order write is in order. -/
theorem sorted_of_patchItems {document : Json} {items : List DiffItem} (sorted : document.Sorted)
    (read : document.patchItems = .ok items) :
    ∀ item ∈ items, ∀ written ∈ item.value, written.Sorted := by
  cases document with
  | array elements =>
      intro item member written carries
      obtain ⟨element, inside, reads⟩ := (mem_of_mapM read).mp member
      obtain ⟨op, _, reads⟩ := except_bind_eq_ok.mp reads
      obtain ⟨path, _, reads⟩ := except_bind_eq_ok.mp reads
      cases reads
      exact (sorted_of_mem_elements sorted element inside).of_find carries
  | null | bool | number | string | object => cases read

/-- Patching keeps a document in order. -/
theorem Sorted.patched {document : Json} (sorted : json.Sorted) (inOrder : document.Sorted)
    (patched : json.patch document = .ok after) : after.Sorted := by
  obtain ⟨items, read, applied⟩ := except_bind_eq_ok.mp patched
  exact sorted_applyItems sorted (sorted_of_patchItems inOrder read) applied

end Operation

end FlexConfig.Json
