import FlexConfig.Foundation.Insertion
import FlexConfig.Json.Merge
import FlexConfig.Json.Order

/-! # A difference is a way from one document to another

The operations that are computed for two documents, applied to the first, produce the second. The
operations for two parts are applied where the parts are found, so that what they do there is what
they do to the parts themselves (`Turns`).
-/

namespace FlexConfig.Json

open Procedure

section Turn

/-- Applied to a document that has one value at a location, operations put another one there. -/
def Turns (items : List DiffItem) (tokens : List Str) (source target : Json) : Prop :=
  ∀ document : Json, document.Sorted → document.atPointer tokens = .ok source →
    applyItems items document = modifyAt (fun _ => .ok target) tokens document

variable {items others : List DiffItem} {tokens : List Str} {source between target : Json}

theorem applyItems_append (items others : List DiffItem) (document : Json) :
    applyItems (items ++ others) document = applyItems items document >>= applyItems others := by
  induction items generalizing document with
  | nil => rfl
  | cons item rest ih =>
      rw [List.cons_append, applyItems, applyItems, bind_assoc]
      exact bind_congr fun next => ih next

theorem turns_nil (tokens : List Str) (source : Json) : Turns [] tokens source source :=
  fun _ sorted found => (modifyAt_same sorted found).symm

theorem Turns.append (first : Turns items tokens source between) (sorted : between.Sorted)
    (second : Turns others tokens between target) :
    Turns (items ++ others) tokens source target := by
  intro document inOrder found
  obtain ⟨after, rewritten, reads, again⟩ := exists_rewritten found between
  rw [applyItems_append, first document inOrder found, rewritten]
  exact (second after (inOrder.rewritten sorted rewritten) reads).trans (again target)

/-- One operation does to the value at a location what it does to it alone. -/
theorem turns_of_item {item : DiffItem} {change : Json → Attempt Json}
    (acts : ∀ document, applyItem item document = modifyAt change tokens document)
    (changes : change source = .ok target) : Turns [item] tokens source target := by
  intro document _ found
  have single : applyItems [item] document = applyItem item document := bind_pure _
  rw [single, acts, modifyAt_of_atPointer found, changes]
  rfl

/-- What is done to a member is done inside its object. -/
theorem Turns.member {members : List (Str × Json)} {key : Str} {value other : Json}
    (inner : Turns items (tokens ++ [key]) value other) (here : Keyed.find key members = some value) :
    Turns items tokens (object members) (object (Keyed.insert key other members)) := by
  intro document sorted found
  have below : document.atPointer (tokens ++ [key]) = .ok value := by
    rw [atPointer_append, found]
    change (object members).atPointer [key] = _
    rw [atPointer, here]
    cases value <;> rfl
  have single : ∀ inside : Json, modifyAt (fun _ => .ok other) [] inside = .ok other := by
    intro inside
    cases inside <;> rfl
  rw [inner document sorted below, modifyAt_append, modifyAt_of_atPointer found,
    modifyAt_object_cons here, single]
  rfl

/-- What is done to an element is done inside its array. -/
theorem Turns.element {elements : List Json} {index : Nat} {value other : Json}
    (inner : Turns items (tokens ++ [indexText index]) value other) (counted : index < maxIndex)
    (here : elements[index]? = some value) :
    Turns items tokens (array elements) (array (elements.set index other)) := by
  intro document sorted found
  have below : document.atPointer (tokens ++ [indexText index]) = .ok value := by
    rw [atPointer_append, found]
    change (array elements).atPointer [indexText index] = _
    rw [atPointer_of_index (indexText_ne_dash index) (arrayIndex_indexText counted) here]
    cases value <;> rfl
  have single : ∀ inside : Json, modifyAt (fun _ => .ok other) [] inside = .ok other := by
    intro inside
    cases inside <;> rfl
  rw [inner document sorted below, modifyAt_append, modifyAt_of_atPointer found,
    modifyAt_array_cons (indexText_ne_dash index) (arrayIndex_indexText counted) here, single]
  rfl

end Turn

section Operation

variable {path : Str} {tokens : List Str}

theorem turns_replaceItem (parsed : Pointer.parse path = .ok tokens) (source target : Json) :
    Turns [replaceItem path target] tokens source target := by
  have acts : ∀ document, applyItem (replaceItem path target) document =
      modifyAt (fun _ => .ok target) tokens document := by
    intro document
    unfold applyItem
    dsimp only [replaceItem]
    rw [parsed]
    rfl
  exact turns_of_item acts rfl

/-- An operation that removes erases what is under the last token. -/
theorem applyItem_removeItem {last : Str} (parsed : Pointer.parse path = .ok (tokens ++ [last]))
    (document : Json) :
    applyItem (removeItem path) document = modifyAt (eraseMember last) tokens document := by
  have back : Pointer.back (tokens ++ [last]) = .ok last := by
    rw [Pointer.back, List.getLast?_concat]
  have removes : applyItem (removeItem path) document =
      operationRemove (tokens ++ [last]) document := by
    unfold applyItem
    dsimp only [removeItem]
    rw [parsed]
    rfl
  rw [removes, operationRemove, back, List.dropLast_concat]
  rfl

/-- An operation that adds writes under the last token. -/
theorem applyItem_addItem {last : Str} (parsed : Pointer.parse path = .ok (tokens ++ [last]))
    (value document : Json) :
    applyItem (addItem path value) document = modifyAt (addMember last value) tokens document := by
  rw [← operationAdd_concat]
  unfold applyItem
  dsimp only [addItem]
  rw [parsed]
  rfl

end Operation

section Elements

variable {path : Str} {tokens : List Str}

/-- The elements behind those that are kept are removed from the last on. -/
theorem turns_removeElements (parsed : Pointer.parse path = .ok tokens) (kept : List Json) :
    ∀ extra : List Json, (∀ element ∈ kept ++ extra, element.Sorted) →
      kept.length + extra.length ≤ maxIndex →
        Turns ((List.range' kept.length extra.length).reverse.map fun index =>
          removeItem (elementPath path index)) tokens (array (kept ++ extra)) (array kept) := by
  intro extra
  induction extra using List.reverseRecOn with
  | nil =>
      intro _ _
      rw [List.append_nil]
      exact turns_nil tokens _
  | append_singleton extra last ih =>
      intro sorted counted
      rw [List.length_append, List.length_singleton] at counted ⊢
      have inner : ∀ element ∈ kept ++ extra, element.Sorted := fun element member =>
        sorted element (by rw [← List.append_assoc]; exact List.mem_append_left _ member)
      have index : kept.length + extra.length < maxIndex := by omega
      have erased : eraseMember (indexText (kept.length + extra.length))
          (array (kept ++ (extra ++ [last]))) = .ok (array (kept ++ extra)) := by
        have shorter : (kept ++ (extra ++ [last])).eraseIdx (kept.length + extra.length) =
            kept ++ extra := by
          rw [← List.append_assoc, ← List.length_append, List.eraseIdx_append_of_length_le le_rfl,
            Nat.sub_self]
          exact List.append_nil _
        have inside : kept.length + extra.length < (kept ++ (extra ++ [last])).length := by
          simp only [List.length_append, List.length_singleton]
          omega
        rw [eraseMember, arrayIndex_indexText index]
        exact (if_pos inside).trans (congrArg (fun elements => Except.ok (array elements)) shorter)
      have first := turns_of_item
        (applyItem_removeItem (parse_elementPath parsed (kept.length + extra.length))) erased
      rw [List.range'_concat, List.reverse_append, Nat.one_mul]
      exact first.append (sortedElements_of_mem inner) (ih inner (Nat.le_of_lt index))

/-- Further elements are appended in turn. -/
theorem turns_appendElements (parsed : Pointer.parse path = .ok tokens) :
    ∀ added kept : List Json, (∀ element ∈ kept ++ added, element.Sorted) →
      Turns (added.map fun value => addItem (path ++ ['/', '-']) value) tokens (array kept)
        (array (kept ++ added)) := by
  intro added
  induction added with
  | nil =>
      intro kept _
      rw [List.append_nil]
      exact turns_nil tokens _
  | cons value rest ih =>
      intro kept sorted
      have atEnd : Pointer.parse (path ++ ['/', '-']) = .ok (tokens ++ [['-']]) :=
        parse_memberPath parsed ['-']
      have appended : addMember ['-'] value (array kept) = .ok (array (kept ++ [value])) := rfl
      have first := turns_of_item (applyItem_addItem atEnd value) appended
      have assoc : kept ++ value :: rest = (kept ++ [value]) ++ rest :=
        List.append_cons kept value rest
      rw [assoc] at sorted ⊢
      refine first.append (sortedElements_of_mem fun element member => ?_) (ih (kept ++ [value]) sorted)
      exact sorted element (List.mem_append_left _ member)

/-- Once the common elements are as in the target, the others are removed or appended. -/
theorem turns_arrays {common : List DiffItem} {source target : List Json}
    (parsed : Pointer.parse path = .ok tokens) (sourceSorted : SortedElements source)
    (targetSorted : SortedElements target) (counted : source.length ≤ maxIndex)
    (turns : Turns common tokens (array source)
      (array (target.take source.length ++ source.drop target.length))) :
    Turns (common ++
        ((List.range' target.length (source.length - target.length)).reverse.map fun index =>
          removeItem (elementPath path index)) ++
        (target.drop source.length).map fun value => addItem (path ++ ['/', '-']) value) tokens
      (array source) (array target) := by
  let kept := target.take source.length
  let extra := source.drop target.length
  have between : ∀ element ∈ kept ++ extra, element.Sorted :=
    List.forall_mem_append.mpr
      ⟨fun element member => sorted_of_mem_elements targetSorted element (List.mem_of_mem_take member),
        fun element member => sorted_of_mem_elements sourceSorted element (List.mem_of_mem_drop member)⟩
  have whole : ∀ element ∈ kept ++ target.drop source.length, element.Sorted := by
    rw [List.take_append_drop]
    exact sorted_of_mem_elements targetSorted
  have removed : Turns ((List.range' target.length (source.length - target.length)).reverse.map
      fun index => removeItem (elementPath path index)) tokens (array (kept ++ extra))
        (array kept) := by
    have lengths : extra.length = source.length - target.length := List.length_drop
    rcases Nat.le_total source.length target.length with longer | shorter
    · have nothing : extra = [] := List.drop_eq_nil_of_le longer
      rw [Nat.sub_eq_zero_of_le longer, nothing, List.append_nil]
      exact turns_nil tokens _
    · have all : kept = target := List.take_of_length_le shorter
      have few : kept.length + extra.length ≤ maxIndex := by
        rw [all, lengths]
        omega
      have removes := turns_removeElements parsed kept extra between few
      rw [lengths, all] at removes
      rwa [all]
  have appended := turns_appendElements parsed (target.drop source.length) kept whole
  rw [List.take_append_drop] at appended
  exact (turns.append (sortedElements_of_mem between) removed).append
    (sortedElements_of_mem fun element member => between element (List.mem_append_left _ member))
    appended

end Elements

section Counted

mutual

/-- The elements of every array can be numbered. -/
def Counted : Json → Prop
  | .null | .bool _ | .number _ | .string _ => True
  | .array elements => elements.length ≤ maxIndex ∧ CountedElements elements
  | .object members => CountedMembers members

def CountedElements : List Json → Prop
  | [] => True
  | element :: rest => Counted element ∧ CountedElements rest

def CountedMembers : List (Str × Json) → Prop
  | [] => True
  | (_, value) :: rest => Counted value ∧ CountedMembers rest

end

end Counted

section Members

/-- The members after those of the source were settled: as in the target, or erased. -/
def settle (target : List (Str × Json)) : (source current : List (Str × Json)) → List (Str × Json)
  | [], current => current
  | (key, _) :: rest, current =>
    settle target rest
      (match Keyed.find key target with
      | some other => Keyed.insert key other current
      | none => Keyed.erase key current)

variable {target : List (Str × Json)}

/-- A settled key is as in the target, and the others are as they were. -/
theorem find_settle (query : Str) : ∀ source current : List (Str × Json),
    (Keyed.keys current).Pairwise (· < ·) →
      Keyed.find query (settle target source current) =
        if query ∈ Keyed.keys source then Keyed.find query target else Keyed.find query current
  | [], _, _ => rfl
  | (key, value) :: rest, current, sorted => by
      have elsewhere : query ≠ key →
          (query ∈ Keyed.keys ((key, value) :: rest) ↔ query ∈ Keyed.keys rest) := fun differs =>
        List.mem_cons.trans (or_iff_right differs)
      rw [settle]
      cases other : Keyed.find key target with
      | some found =>
          rw [find_settle query rest _ (Keyed.pairwise_keys_insert sorted), Keyed.find_insert]
          by_cases same : query = key
          · have settled : query ∈ Keyed.keys ((key, value) :: rest) := same ▸ List.mem_cons_self
            rw [if_pos same, if_pos settled, same, other]
            exact ite_self _
          · rw [if_neg same]
            exact if_congr (elsewhere same).symm rfl rfl
      | none =>
          rw [find_settle query rest _ (Keyed.pairwise_keys_erase sorted), Keyed.find_erase sorted]
          by_cases same : query = key
          · have settled : query ∈ Keyed.keys ((key, value) :: rest) := same ▸ List.mem_cons_self
            rw [if_pos same, if_pos settled, same, other]
            exact ite_self _
          · rw [if_neg same]
            exact if_congr (elsewhere same).symm rfl rfl

theorem sorted_settle (targetSorted : (object target).Sorted) :
    ∀ source current : List (Str × Json), (object current).Sorted →
      (object (settle target source current)).Sorted
  | [], _, sorted => sorted
  | (key, _) :: rest, current, sorted => by
      rw [settle]
      cases other : Keyed.find key target with
      | some found =>
          exact sorted_settle targetSorted rest _ (sorted.insert key (targetSorted.of_find other))
      | none => exact sorted_settle targetSorted rest _ (sorted.erase key)

/-- The members that the source lacks complete those that were settled. -/
theorem insertAll_settle {source : List (Str × Json)} (sourceSorted : (object source).Sorted)
    (targetSorted : (object target).Sorted) :
    Keyed.insertAll (target.filter fun entry => (Keyed.find entry.1 source).isNone)
      (settle target source source) = target := by
  refine Keyed.eq_of_find (Keyed.pairwise_keys_insertAll
    (sorted_settle targetSorted source source sourceSorted).1) targetSorted.1 fun query => ?_
  have distinct : (Keyed.keys (target.filter fun entry =>
      (Keyed.find entry.1 source).isNone)).Nodup :=
    (targetSorted.1.sublist (List.filter_sublist.map Prod.fst)).imp fun less => ne_of_lt less
  rw [Keyed.find_insertAll_of_nodup distinct, find_settle query source source sourceSorted.1,
    Keyed.find_filter fun key => (Keyed.find key source).isNone]
  cases present : Keyed.find query source with
  | none =>
      rw [if_neg (Keyed.find_eq_none_iff.mp present)]
      exact Option.or_none
  | some value =>
      rw [if_pos (Keyed.find_isSome_iff.mp (Option.isSome_of_eq_some present))]
      rfl

/-- The members of the target that the source lacks are added. -/
theorem turns_addMembers {path : Str} {tokens : List Str}
    (parsed : Pointer.parse path = .ok tokens) :
    ∀ added current : List (Str × Json), (object current).Sorted →
      (∀ entry ∈ added, entry.2.Sorted) →
        Turns (added.map fun entry => addItem (memberPath path entry.1) entry.2) tokens
          (object current) (object (Keyed.insertAll added current))
  | [], current, _, _ => turns_nil tokens (object current)
  | (key, value) :: rest, current, sorted, inner => by
      obtain ⟨here, later⟩ := List.forall_mem_cons.mp inner
      have written : addMember key value (object current) =
          .ok (object (Keyed.insert key value current)) := rfl
      have first := turns_of_item (applyItem_addItem (parse_memberPath parsed key) value) written
      have next := sorted.insert key here
      exact first.append next (turns_addMembers parsed rest _ next later)

end Members

section Difference

mutual

/-- The operations that are computed for two values turn the first into the second. -/
theorem turns_diffItems : ∀ (source target : Json) {path : Str} {tokens : List Str},
    source.Sorted → target.Sorted → source.Counted → Pointer.parse path = .ok tokens →
      Turns (diffItems source target path) tokens source target
  | .array source, target, path, tokens, sourceSorted, targetSorted, counted, parsed => by
      cases target with
      | array elements =>
          rw [diffItems]
          by_cases same : source = elements
          · rw [if_pos same, same]
            exact turns_nil tokens _
          · rw [if_neg same]
            have few : ([] : List Json).length + source.length ≤ maxIndex := by
              rw [List.length_nil, Nat.zero_add]
              exact counted.1
            have common := turns_diffElements source elements [] sourceSorted targetSorted
              (fun _ impossible => absurd impossible List.not_mem_nil) counted.2 few parsed
            exact turns_arrays parsed sourceSorted targetSorted counted.1 common
      | null | bool | number | string | object => exact turns_replaceItem parsed _ _
  | .object source, target, path, tokens, sourceSorted, targetSorted, counted, parsed => by
      cases target with
      | object members =>
          rw [diffItems]
          by_cases same : source = members
          · rw [if_pos same, same]
            exact turns_nil tokens _
          · rw [if_neg same]
            have between := sorted_settle targetSorted source source sourceSorted
            have settled := turns_diffMembers source members source sourceSorted.2 targetSorted
              counted sourceSorted
              (fun entry member => (Keyed.find_eq_some_iff sourceSorted.1).mpr member)
              (sourceSorted.1.imp fun less => ne_of_lt less) parsed
            have added := turns_addMembers parsed
              (members.filter fun entry => (Keyed.find entry.1 source).isNone)
              (settle members source source) between
              fun entry member => sorted_of_mem targetSorted.2 entry (List.mem_filter.mp member).1
            rw [insertAll_settle sourceSorted targetSorted] at added
            exact settled.append between added
      | null | bool | number | string | array => exact turns_replaceItem parsed _ _
  | .null, target, path, tokens, _, _, _, parsed => by
      unfold diffItems
      split
      · next same =>
          rw [← same]
          exact turns_nil tokens _
      · exact turns_replaceItem parsed _ _
  | .bool _, target, path, tokens, _, _, _, parsed => by
      unfold diffItems
      split
      · next same =>
          rw [← same]
          exact turns_nil tokens _
      · exact turns_replaceItem parsed _ _
  | .number _, target, path, tokens, _, _, _, parsed => by
      unfold diffItems
      split
      · next same =>
          rw [← same]
          exact turns_nil tokens _
      · exact turns_replaceItem parsed _ _
  | .string _, target, path, tokens, _, _, _, parsed => by
      unfold diffItems
      split
      · next same =>
          rw [← same]
          exact turns_nil tokens _
      · exact turns_replaceItem parsed _ _

theorem turns_diffElements : ∀ (source target before : List Json) {path : Str}
    {tokens : List Str}, SortedElements source → SortedElements target →
      (∀ element ∈ before, element.Sorted) → CountedElements source →
        before.length + source.length ≤ maxIndex → Pointer.parse path = .ok tokens →
          Turns (diffElements source target path before.length) tokens (array (before ++ source))
            (array (before ++ (target.take source.length ++ source.drop target.length)))
  | [], target, before, path, tokens, _, _, _, _, _, _ => by
      cases target <;> exact turns_nil tokens _
  | _ :: _, [], before, path, tokens, _, _, _, _, _, _ => turns_nil tokens _
  | value :: rest, other :: others, before, path, tokens, sourceSorted, targetSorted, inOrder,
      counted, few, parsed => by
      have index : before.length < maxIndex := by
        rw [List.length_cons] at few
        omega
      have here : (before ++ value :: rest)[before.length]? = some value := by
        rw [List.getElem?_append_right le_rfl, Nat.sub_self]
        rfl
      have first := (turns_diffItems value other sourceSorted.1 targetSorted.1 counted.1
        (parse_elementPath parsed before.length)).element index here
      have replaced : (before ++ value :: rest).set before.length other =
          (before ++ [other]) ++ rest := by
        rw [List.set_append_right _ _ le_rfl, Nat.sub_self, List.append_assoc]
        rfl
      have known : ∀ element ∈ before ++ [other], element.Sorted := fun element member =>
        (List.mem_append.mp member).elim (inOrder element) fun here =>
          List.mem_singleton.mp here ▸ targetSorted.1
      have between : ∀ element ∈ (before ++ [other]) ++ rest, element.Sorted :=
        List.forall_mem_append.mpr ⟨known, sorted_of_mem_elements sourceSorted.2⟩
      have further := turns_diffElements rest others (before ++ [other]) sourceSorted.2
        targetSorted.2 known counted.2 (by
          rw [List.length_append, List.length_singleton]
          rw [List.length_cons] at few
          omega) parsed
      rw [replaced] at first
      rw [List.length_append, List.length_singleton,
        List.append_assoc before [other] (others.take _ ++ _)] at further
      exact first.append (sortedElements_of_mem between) further

theorem turns_diffMembers : ∀ (source target current : List (Str × Json)) {path : Str}
    {tokens : List Str}, SortedMembers source → (object target).Sorted → CountedMembers source →
      (object current).Sorted → (∀ entry ∈ source, Keyed.find entry.1 current = some entry.2) →
        (Keyed.keys source).Nodup → Pointer.parse path = .ok tokens →
          Turns (diffMembers source target path) tokens (object current)
            (object (settle target source current))
  | [], _, current, path, tokens, _, _, _, _, _, _, _ => turns_nil tokens _
  | (key, value) :: rest, target, current, path, tokens, sourceSorted, targetSorted, counted,
      sorted, present, distinct, parsed => by
      obtain ⟨here, later⟩ := List.forall_mem_cons.mp present
      obtain ⟨fresh, distinctRest⟩ := List.nodup_cons.mp distinct
      rw [diffMembers, settle]
      cases other : Keyed.find key target with
      | some found =>
          have first := (turns_diffItems value found sourceSorted.1 (targetSorted.of_find other)
            counted.1 (parse_memberPath parsed key)).member here
          have next := sorted.insert key (targetSorted.of_find other)
          refine first.append next (turns_diffMembers rest target _ sourceSorted.2 targetSorted
            counted.2 next (fun entry member => ?_) distinctRest parsed)
          have differs : entry.1 ≠ key := fun same =>
            fresh (show key ∈ Keyed.keys rest from same ▸ List.mem_map_of_mem member)
          rw [Keyed.find_insert_of_ne differs]
          exact later entry member
      | none =>
          have erased : eraseMember key (object current) = .ok (object (Keyed.erase key current)) := by
            rw [eraseMember, here]
          have first := turns_of_item (applyItem_removeItem (parse_memberPath parsed key)) erased
          have next := sorted.erase key
          refine first.append next (turns_diffMembers rest target _ sourceSorted.2 targetSorted
            counted.2 next (fun entry member => ?_) distinctRest parsed)
          have differs : entry.1 ≠ key := fun same =>
            fresh (show key ∈ Keyed.keys rest from same ▸ List.mem_map_of_mem member)
          rw [Keyed.find_erase sorted.1, if_neg differs]
          exact later entry member

end

/-- An operation that is computed for two values at a location: what it writes is in the second
one, or is put into what is there, and what it removes is in the first one. -/
inductive Computed (source target : Json) (tokens : List Str) : DiffItem → Prop
  | replaces {path : Str} {rest : List Str} {value : Json}
      (parsed : Pointer.parse path = .ok (tokens ++ rest))
      (there : target.atPointer rest = .ok value) :
      Computed source target tokens (replaceItem path value)
  | removes {path last : Str} {rest : List Str} {value : Json}
      (parsed : Pointer.parse path = .ok (tokens ++ (rest ++ [last])))
      (present : source.atPointer (rest ++ [last]) = .ok value) :
      Computed source target tokens (removeItem path)
  | adds {path last : Str} {rest : List Str} {value container : Json}
      (parsed : Pointer.parse path = .ok (tokens ++ (rest ++ [last])))
      (there : target.atPointer rest = .ok container)
      (entry : last = ['-'] ∧ (∃ elements, container = array elements ∧ value ∈ elements) ∨
        target.atPointer (rest ++ [last]) = .ok value) :
      Computed source target tokens (addItem path value)

variable {item : DiffItem} {tokens : List Str}

theorem Computed.plain {source target : Json} (computed : Computed source target tokens item) :
    item.fromPath = none := by
  cases computed <;> rfl

/-- What an operation writes is in order where the second document is. -/
theorem Computed.sorted {source target : Json} (computed : Computed source target tokens item)
    (targetSorted : target.Sorted) : ∀ written ∈ item.value, written.Sorted := by
  intro written carries
  cases computed with
  | replaces _ there =>
      cases carries
      exact targetSorted.located there
  | removes => cases carries
  | adds _ there entry =>
      cases carries
      rcases entry with ⟨_, elements, rfl, inside⟩ | found
      · exact sorted_of_mem_elements (targetSorted.located there) _ inside
      · exact targetSorted.located found

/-- What is computed for a part is computed for the whole. -/
theorem Computed.within {source target part other : Json} {token : Str}
    (computed : Computed part other (tokens ++ [token]) item)
    (inside : ∀ rest, source.atPointer (token :: rest) = part.atPointer rest)
    (inTarget : ∀ rest, target.atPointer (token :: rest) = other.atPointer rest) :
    Computed source target tokens item := by
  cases computed with
  | replaces parsed there =>
      rw [List.append_assoc] at parsed
      exact .replaces parsed ((inTarget _).trans there)
  | @removes path last rest value parsed present =>
      rw [List.append_assoc] at parsed
      exact .removes (show Pointer.parse path = .ok (tokens ++ ((token :: rest) ++ [last]))
        from parsed) ((inside _).trans present)
  | @adds path last rest value container parsed there entry =>
      rw [List.append_assoc] at parsed
      exact .adds (show Pointer.parse path = .ok (tokens ++ ((token :: rest) ++ [last])) from parsed)
        ((inTarget _).trans there) (entry.imp_right (inTarget _).trans)

theorem atPointer_nil (json : Json) : json.atPointer [] = .ok json := by
  cases json <;> rfl

theorem atPointer_member {members : List (Str × Json)} {key : Str} {value : Json}
    (here : Keyed.find key members = some value) (rest : List Str) :
    (object members).atPointer (key :: rest) = value.atPointer rest := by
  rw [atPointer, here]

theorem atPointer_element {elements : List Json} {index : Nat} {value : Json}
    (counted : index < maxIndex) (here : elements[index]? = some value) (rest : List Str) :
    (array elements).atPointer (indexText index :: rest) = value.atPointer rest :=
  atPointer_of_index (indexText_ne_dash index) (arrayIndex_indexText counted) here rest

/-- Replacing the whole value. -/
theorem computed_replaceItem {source target : Json} {path : Str}
    (parsed : Pointer.parse path = .ok tokens) :
    Computed source target tokens (replaceItem path target) := by
  have whole : Pointer.parse path = .ok (tokens ++ []) := by
    rw [List.append_nil]
    exact parsed
  exact .replaces whole (atPointer_nil target)

theorem getElem?_append_length {α : Type} (before rest : List α) (value : α) :
    (before ++ value :: rest)[before.length]? = some value := by
  rw [List.getElem?_append_right le_rfl, Nat.sub_self]
  rfl

mutual

theorem computed_diffItems : ∀ (source target : Json) {path : Str} {tokens : List Str},
    source.Sorted → target.Sorted → source.Counted → Pointer.parse path = .ok tokens →
      ∀ item ∈ diffItems source target path, Computed source target tokens item
  | .array source, target, path, tokens, sourceSorted, targetSorted, counted, parsed, item,
      member => by
      cases target with
      | array elements =>
          rw [diffItems] at member
          split at member
          · cases member
          · rcases List.mem_append.mp member with early | late
            · rcases List.mem_append.mp early with common | removed
              · have few : ([] : List Json).length + source.length ≤ maxIndex := by
                  rw [List.length_nil, Nat.zero_add]
                  exact counted.1
                exact computed_diffElements source elements [] [] rfl sourceSorted targetSorted
                  counted.2 few parsed item common
              · obtain ⟨index, between, rfl⟩ := List.mem_map.mp removed
                have range := List.mem_range'_1.mp (List.mem_reverse.mp between)
                have inside : index < source.length := by omega
                have here := List.getElem?_eq_getElem inside
                exact .removes (show Pointer.parse _ = .ok (tokens ++ ([] ++ [indexText index]))
                  from parse_elementPath parsed index)
                  ((atPointer_element (Nat.lt_of_lt_of_le inside counted.1) here []).trans
                    (atPointer_nil _))
            · obtain ⟨value, inside, rfl⟩ := List.mem_map.mp late
              exact .adds (show Pointer.parse _ = .ok (tokens ++ ([] ++ [['-']]))
                from parse_memberPath parsed ['-']) (atPointer_nil _)
                (.inl ⟨rfl, elements, rfl, List.mem_of_mem_drop inside⟩)
      | null | bool | number | string | object =>
          cases List.mem_singleton.mp member
          exact computed_replaceItem parsed
  | .object source, target, path, tokens, sourceSorted, targetSorted, counted, parsed, item,
      member => by
      cases target with
      | object members =>
          rw [diffItems] at member
          split at member
          · cases member
          · rcases List.mem_append.mp member with early | late
            · exact computed_diffMembers source members source sourceSorted.2 targetSorted counted
                (fun entry member => (Keyed.find_eq_some_iff sourceSorted.1).mpr member) parsed item
                early
            · obtain ⟨entry, inside, _, rfl⟩ := mem_addedMembers.mp late
              have here := (Keyed.find_eq_some_iff targetSorted.1).mpr inside
              exact .adds (show Pointer.parse _ = .ok (tokens ++ ([] ++ [entry.1]))
                from parse_memberPath parsed entry.1) (atPointer_nil _)
                (.inr ((atPointer_member here []).trans (atPointer_nil _)))
      | null | bool | number | string | array =>
          cases List.mem_singleton.mp member
          exact computed_replaceItem parsed
  | .null, target, path, tokens, _, targetSorted, _, parsed, item, member
  | .bool _, target, path, tokens, _, targetSorted, _, parsed, item, member
  | .number _, target, path, tokens, _, targetSorted, _, parsed, item, member
  | .string _, target, path, tokens, _, targetSorted, _, parsed, item, member => by
      unfold diffItems at member
      split at member
      · cases member
      · cases List.mem_singleton.mp member
        exact computed_replaceItem parsed

theorem computed_diffElements : ∀ (source target before others : List Json) {path : Str}
    {tokens : List Str}, before.length = others.length → SortedElements source →
      SortedElements target → CountedElements source → before.length + source.length ≤ maxIndex →
        Pointer.parse path = .ok tokens → ∀ item ∈ diffElements source target path before.length,
          Computed (array (before ++ source)) (array (others ++ target)) tokens item
  | [], _, _, _, _, _, _, _, _, _, _, _, _, member => by
      unfold diffElements at member
      cases member
  | _ :: _, [], _, _, _, _, _, _, _, _, _, _, _, member => by cases member
  | value :: rest, other :: further, before, others, path, tokens, level, sourceSorted,
      targetSorted, counted, few, parsed, item, member => by
      have index : before.length < maxIndex := by
        rw [List.length_cons] at few
        omega
      have there : (others ++ other :: further)[before.length]? = some other := by
        rw [level]
        exact getElem?_append_length others further other
      rcases List.mem_append.mp member with atIndex | later
      · exact (computed_diffItems value other sourceSorted.1 targetSorted.1 counted.1
          (parse_elementPath parsed before.length) item atIndex).within
            (atPointer_element index (getElem?_append_length before rest value))
            (atPointer_element index there)
      · have nextLevel : (before ++ [value]).length = (others ++ [other]).length := by
          simp [level]
        have nextFew : (before ++ [value]).length + rest.length ≤ maxIndex := by
          rw [List.length_append, List.length_singleton]
          rw [List.length_cons] at few
          omega
        have next := computed_diffElements rest further (before ++ [value]) (others ++ [other])
          nextLevel sourceSorted.2 targetSorted.2 counted.2 nextFew parsed item
        rw [List.length_append, List.length_singleton, ← List.append_cons, ← List.append_cons]
          at next
        exact next later

theorem computed_diffMembers : ∀ (source target current : List (Str × Json)) {path : Str}
    {tokens : List Str}, SortedMembers source → (object target).Sorted → CountedMembers source →
      (∀ entry ∈ source, Keyed.find entry.1 current = some entry.2) →
        Pointer.parse path = .ok tokens → ∀ item ∈ diffMembers source target path,
          Computed (object current) (object target) tokens item
  | [], _, _, _, _, _, _, _, _, _, _, member => by cases member
  | (key, value) :: rest, target, current, path, tokens, sourceSorted, targetSorted, counted,
      present, parsed, item, member => by
      obtain ⟨here, later⟩ := List.forall_mem_cons.mp present
      rw [diffMembers] at member
      rcases List.mem_append.mp member with first | others
      · cases other : Keyed.find key target with
        | none =>
            rw [other] at first
            cases List.mem_singleton.mp first
            exact .removes (show Pointer.parse _ = .ok (tokens ++ ([] ++ [key]))
              from parse_memberPath parsed key)
              ((atPointer_member here []).trans (atPointer_nil _))
        | some found =>
            rw [other] at first
            exact (computed_diffItems value found sourceSorted.1 (targetSorted.of_find other)
              counted.1 (parse_memberPath parsed key) item first).within (atPointer_member here)
                (atPointer_member other)
      · exact computed_diffMembers rest target current sourceSorted.2 targetSorted counted.2 later
          parsed item others

end

variable {source target : Json} (sourceSorted : source.Sorted) (targetSorted : target.Sorted)
  (counted : source.Counted)

include sourceSorted targetSorted counted

/-- The operations of a difference are read from its document. -/
theorem patchItems_diff :
    (source.diff target).patchItems = .ok (diffItems source target []) :=
  mapM_ofJson_toJson fun item member =>
    (computed_diffItems source target sourceSorted targetSorted counted rfl item member).plain

/-- The document of a difference is in order. -/
theorem sorted_diff : (source.diff target).Sorted := by
  refine sortedElements_of_mem fun element member => ?_
  obtain ⟨item, computed, rfl⟩ := List.mem_map.mp member
  have written := (computed_diffItems source target sourceSorted targetSorted counted rfl item
    computed).sorted targetSorted
  have plainKeys : [JsonDiffField.OPERATION, JsonDiffField.PATH].Pairwise (· < ·) := by decide
  have keys : [JsonDiffField.OPERATION, JsonDiffField.PATH, JsonDiffField.VALUE].Pairwise
      (· < ·) := by decide
  unfold DiffItem.toJson
  cases carries : item.value with
  | none => exact ⟨plainKeys, trivial, trivial, trivial⟩
  | some value => exact ⟨keys, trivial, trivial, written value carries, trivial⟩

/-- Applied to the first document they produce the second. -/
theorem applyItems_diffItems : applyItems (diffItems source target []) source = .ok target := by
  have whole : source.atPointer [] = .ok source := by cases source <;> rfl
  have replaced : modifyAt (fun _ => .ok target) [] source = .ok target := by cases source <;> rfl
  have turned := turns_diffItems source target sourceSorted targetSorted counted
    (show Pointer.parse [] = .ok [] from rfl) source sourceSorted whole
  exact turned.trans replaced

/-- A document patched with its difference to another one is the other one. -/
theorem patch_diff : source.patch (source.diff target) = .ok target := by
  unfold patch
  rw [patchItems_diff sourceSorted targetSorted counted]
  exact applyItems_diffItems sourceSorted targetSorted counted

end Difference

end FlexConfig.Json
