import FlexConfig.Json.Patch
import FlexConfig.Json.Shape

/-! # Rewriting at a location

Checked access to a location and rewriting there, as the two sides of one thing: what is
rewritten is what is found there, what is found afterwards is what was written, and a location
behind another is rewritten inside it.
-/

namespace FlexConfig.Json

open Procedure

section Index

/-- The index an element is printed with is read back, as long as the library can count so far. -/
theorem arrayIndex_indexText {index : Nat} (counted : index < maxIndex) :
    arrayIndex (indexText index) = .ok index := by
  have value : (indexText index).foldl (fun number c => 10 * number + digitValue c) 0 = index :=
    Digits.value_toDigits index
  have digits : (indexText index).all Char.isDigit = true :=
    List.all_eq_true.mpr fun _ member => Digits.isDigit_of_mem member
  unfold arrayIndex
  rw [value]
  exact if_pos ⟨Nat.toDigits_ne_nil, digits, Digits.length_eq_one_of_head, counted⟩

theorem indexText_ne_dash (index : Nat) : indexText index ≠ ['-'] := by
  intro same
  have digit : '-'.isDigit = true :=
    Digits.isDigit_of_mem (show '-' ∈ indexText index from same ▸ List.mem_cons_self)
  exact absurd digit (by decide)

/-- An index needs no escapes. -/
theorem escape_indexText (index : Nat) : Pointer.escape (indexText index) = indexText index := by
  have digits : ∀ c ∈ indexText index, c.isDigit = true := fun _ member =>
    Digits.isDigit_of_mem member
  generalize indexText index = text at digits
  induction text with
  | nil => rfl
  | cons c rest ih =>
      obtain ⟨digit, others⟩ := List.forall_mem_cons.mp digits
      have notTilde : c ≠ '~' := fun same => absurd (same ▸ digit) (by decide)
      have notSlash : c ≠ '/' := fun same => absurd (same ▸ digit) (by decide)
      rw [escape_plain notTilde notSlash, ih others]

/-- The path of a member is read as the path of its object and its name. -/
theorem parse_memberPath {path : Str} {tokens : List Str}
    (parsed : Pointer.parse path = .ok tokens) (key : Str) :
    Pointer.parse (memberPath path key) = .ok (tokens ++ [key]) := by
  unfold memberPath
  rw [Pointer.parse_append, parsed, Pointer.parse_escape]
  rfl

/-- Likewise that of an element. -/
theorem parse_elementPath {path : Str} {tokens : List Str}
    (parsed : Pointer.parse path = .ok tokens) (index : Nat) :
    Pointer.parse (elementPath path index) = .ok (tokens ++ [indexText index]) := by
  have asMember := parse_memberPath parsed (indexText index)
  unfold memberPath at asMember
  rwa [escape_indexText] at asMember

end Index

section Locate

variable {json value : Json} {tokens : List Str} {change : Json → Attempt Json}

theorem modifyAt_append (change : Json → Attempt Json) (tokens others : List Str) (json : Json) :
    modifyAt change (tokens ++ others) json = modifyAt (modifyAt change others) tokens json := by
  induction tokens generalizing json with
  | nil => cases json <;> rfl
  | cons token rest ih =>
      rw [List.cons_append]
      cases json with
      | object members =>
          rw [modifyAt, modifyAt]
          cases Keyed.find token members with
          | none => rfl
          | some inner => exact congrArg (· >>= _) (ih inner)
      | array elements =>
          rw [modifyAt, modifyAt]
          split
          · rfl
          · refine bind_congr fun index => ?_
            cases elements[index]? with
            | none => rfl
            | some inner => exact congrArg (· >>= _) (ih inner)
      | null | bool | number | string => rfl

theorem atPointer_append (json : Json) (tokens others : List Str) :
    json.atPointer (tokens ++ others) =
      json.atPointer tokens >>= fun inner => inner.atPointer others := by
  induction tokens generalizing json with
  | nil => cases json <;> rfl
  | cons token rest ih =>
      rw [List.cons_append]
      cases json with
      | object members =>
          rw [atPointer, atPointer]
          cases Keyed.find token members with
          | none => rfl
          | some inner => exact ih inner
      | array elements =>
          rw [atPointer, atPointer]
          split
          · rfl
          · rw [bind_assoc]
            refine bind_congr fun index => ?_
            cases elements[index]? with
            | none => rfl
            | some inner => exact ih inner
      | null | bool | number | string => rfl

/-- An element is found under its index. -/
theorem atPointer_array_cons {elements : List Json} {token : Str} {rest : List Str}
    (found : (array elements).atPointer (token :: rest) = .ok value) :
    token ≠ ['-'] ∧ ∃ index inner, arrayIndex token = .ok index ∧ elements[index]? = some inner ∧
      inner.atPointer rest = .ok value := by
  rw [atPointer] at found
  split at found
  · cases found
  · next notEnd =>
      obtain ⟨index, indexed, found⟩ := except_bind_eq_ok.mp found
      split at found
      · cases found
      · next inner here => exact ⟨notEnd, index, inner, indexed, here, found⟩

/-- What is found behind the index of an element is found in the element. -/
theorem atPointer_of_index {elements : List Json} {token : Str} {index : Nat} {inner : Json}
    (notEnd : token ≠ ['-']) (indexed : arrayIndex token = .ok index)
    (here : elements[index]? = some inner) (rest : List Str) :
    (array elements).atPointer (token :: rest) = inner.atPointer rest := by
  rw [atPointer, if_neg notEnd, indexed]
  dsimp only [bind, Except.bind]
  rw [here]

theorem atPointer_object_cons {members : List (Str × Json)} {token : Str} {rest : List Str}
    (found : (object members).atPointer (token :: rest) = .ok value) :
    ∃ inner, Keyed.find token members = some inner ∧ inner.atPointer rest = .ok value := by
  rw [atPointer] at found
  split at found
  · cases found
  · next inner here => exact ⟨inner, here, found⟩

theorem modifyAt_object_cons {members : List (Str × Json)} {token : Str} {inner : Json}
    (here : Keyed.find token members = some inner) (change : Json → Attempt Json)
    (rest : List Str) : modifyAt change (token :: rest) (object members) =
      modifyAt change rest inner >>= fun changed =>
        .ok (object (Keyed.insert token changed members)) := by
  rw [modifyAt, here]
  rfl

theorem modifyAt_array_cons {elements : List Json} {token : Str} {index : Nat} {inner : Json}
    (notEnd : token ≠ ['-']) (indexed : arrayIndex token = .ok index)
    (here : elements[index]? = some inner) (change : Json → Attempt Json) (rest : List Str) :
    modifyAt change (token :: rest) (array elements) =
      modifyAt change rest inner >>= fun changed => .ok (array (elements.set index changed)) := by
  rw [modifyAt, if_neg notEnd, indexed]
  dsimp only [bind, Except.bind]
  rw [here]
  rfl

/-- What is rewritten is what is found. -/
theorem modifyAt_of_atPointer (found : json.atPointer tokens = .ok value)
    (change : Json → Attempt Json) : modifyAt change tokens json =
      change value >>= fun changed => modifyAt (fun _ => .ok changed) tokens json := by
  induction tokens generalizing json with
  | nil =>
      cases json <;> cases found <;> exact (bind_pure _).symm
  | cons token rest ih =>
      cases json with
      | object members =>
          obtain ⟨inner, here, below⟩ := atPointer_object_cons found
          simp only [modifyAt_object_cons here]
          rw [ih below]
          cases change value <;> rfl
      | array elements =>
          obtain ⟨notEnd, index, inner, indexed, here, below⟩ := atPointer_array_cons found
          simp only [modifyAt_array_cons notEnd indexed here]
          rw [ih below]
          cases change value <;> rfl
      | null | bool | number | string => cases found

/-- What was written is found, and can be written over. -/
theorem exists_rewritten (found : json.atPointer tokens = .ok value) (written : Json) :
    ∃ after, modifyAt (fun _ => .ok written) tokens json = .ok after ∧
      after.atPointer tokens = .ok written ∧ ∀ other,
        modifyAt (fun _ => .ok other) tokens after = modifyAt (fun _ => .ok other) tokens json := by
  induction tokens generalizing json with
  | nil =>
      refine ⟨written, by cases json <;> rfl, by cases written <;> rfl, fun other => ?_⟩
      cases json <;> cases written <;> rfl
  | cons token rest ih =>
      cases json with
      | object members =>
          obtain ⟨inner, here, below⟩ := atPointer_object_cons found
          obtain ⟨after, rewritten, reads, again⟩ := ih below
          have there : Keyed.find token (Keyed.insert token after members) = some after :=
            Keyed.find_insert_self token after members
          refine ⟨object (Keyed.insert token after members), ?_, ?_, fun other => ?_⟩
          · rw [modifyAt_object_cons here, rewritten]
            rfl
          · rw [atPointer, there]
            exact reads
          · rw [modifyAt_object_cons here, modifyAt_object_cons there, again]
            simp only [Keyed.insert_insert]
      | array elements =>
          obtain ⟨notEnd, index, inner, indexed, here, below⟩ := atPointer_array_cons found
          obtain ⟨after, rewritten, reads, again⟩ := ih below
          have inside : index < elements.length := (List.getElem?_eq_some_iff.mp here).1
          have there : (elements.set index after)[index]? = some after :=
            List.getElem?_set_self inside
          refine ⟨array (elements.set index after), ?_, ?_, fun other => ?_⟩
          · rw [modifyAt_array_cons notEnd indexed here, rewritten]
            rfl
          · rw [atPointer_of_index notEnd indexed there]
            exact reads
          · rw [modifyAt_array_cons notEnd indexed here, modifyAt_array_cons notEnd indexed there,
              again]
            simp only [List.set_set]
      | null | bool | number | string => cases found

/-- What is found can be written where it was found, and nothing changes. -/
theorem modifyAt_same (sorted : json.Sorted) (found : json.atPointer tokens = .ok value) :
    modifyAt (fun _ => .ok value) tokens json = .ok json := by
  induction tokens generalizing json with
  | nil => cases json <;> cases found <;> rfl
  | cons token rest ih =>
      cases json with
      | object members =>
          obtain ⟨inner, here, below⟩ := atPointer_object_cons found
          rw [modifyAt_object_cons here, ih (sorted.of_find here) below]
          exact congrArg (fun entries => Except.ok (object entries))
            (Keyed.insert_of_find sorted.1 here)
      | array elements =>
          obtain ⟨notEnd, index, inner, indexed, here, below⟩ := atPointer_array_cons found
          have inside := sorted_of_mem_elements sorted inner (List.mem_of_getElem? here)
          obtain ⟨bound, rfl⟩ := List.getElem?_eq_some_iff.mp here
          rw [modifyAt_array_cons notEnd indexed here, ih inside below]
          exact congrArg (fun entries => Except.ok (array entries)) (List.set_getElem_self bound)
      | null | bool | number | string => cases found

/-- A document stays in order when a part of it is changed into a value in order. -/
theorem Sorted.modified {after : Json}
    (keeps : ∀ inside changed : Json, inside.Sorted → change inside = .ok changed → changed.Sorted)
    (sorted : json.Sorted) (modified : modifyAt change tokens json = .ok after) : after.Sorted := by
  induction tokens generalizing json after with
  | nil => cases json <;> exact keeps _ _ sorted modified
  | cons token rest ih =>
      cases json with
      | object members =>
          rw [modifyAt] at modified
          split at modified
          · cases modified
          · next child here =>
              obtain ⟨changed, below, finished⟩ := except_bind_eq_ok.mp modified
              cases finished
              exact sorted.insert token (ih (sorted.of_find here) below)
      | array elements =>
          rw [modifyAt] at modified
          split at modified
          · cases modified
          · obtain ⟨index, _, modified⟩ := except_bind_eq_ok.mp modified
            split at modified
            · cases modified
            · next child here =>
                obtain ⟨changed, below, finished⟩ := except_bind_eq_ok.mp modified
                cases finished
                have inside := sorted_of_mem_elements sorted child (List.mem_of_getElem? here)
                refine sortedElements_of_mem fun element member => ?_
                rcases List.mem_or_eq_of_mem_set member with old | new
                · exact sorted_of_mem_elements sorted element old
                · exact new ▸ ih inside below
      | null | bool | number | string => cases modified

theorem Sorted.rewritten {after written : Json} (sorted : json.Sorted) (inner : written.Sorted)
    (rewritten : modifyAt (fun _ => .ok written) tokens json = .ok after) : after.Sorted := by
  refine sorted.modified (fun inside changed _ written => ?_) rewritten
  cases written
  exact inner

end Locate

end FlexConfig.Json
