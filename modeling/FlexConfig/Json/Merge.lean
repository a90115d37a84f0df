import FlexConfig.Json.Rewriting

/-! # What a computed patch adds

Of the difference between two compatible documents the additions alone lay the second document
under the first: each one writes what the second has at a path whose parent is an object in both
and that the first does not have, and nothing below a missing path is left out.
-/

namespace FlexConfig.Json

open Procedure

section Write

/-- A member written into an object is what is found there, and nothing else changes. -/
theorem shapeAt_insert (members : List (Str × Json)) (name : Str) (value : Json)
    (query : Str) (rest : List Str) :
    (object (Keyed.insert name value members)).shapeAt (query :: rest) =
      if query = name then value.shapeAt rest else (object members).shapeAt (query :: rest) := by
  rw [shapeAt_cons, shapeAt_cons]
  change (Keyed.find query (Keyed.insert name value members)).bind _ = _
  rw [Keyed.find_insert]
  by_cases same : query = name
  · rw [if_pos same, if_pos same]
    rfl
  · rw [if_neg same, if_neg same]
    rfl

/-- What a document has after a value was added at a path: below the path what the value has, and
elsewhere what it had. -/
structure Adds (path : List Str) (value before after : Json) : Prop where
  sorted : after.Sorted
  below : ∀ rest, after.shapeAt (path ++ rest) = value.shapeAt rest
  elsewhere : ∀ query, ¬ path <+: query → after.shapeAt query = before.shapeAt query

theorem operationAdd_concat (path : List Str) (name : Str) (value json : Json) :
    operationAdd (path ++ [name]) value json = modifyAt (addMember name value) path json := by
  unfold operationAdd
  rw [List.getLast?_concat, List.dropLast_concat]

/-- A member of an object is added. -/
theorem adds_insert {members : List (Str × Json)} {value : Json} (name : Str)
    (sorted : (object members).Sorted) (inner : value.Sorted) :
    Adds [name] value (object members) (object (Keyed.insert name value members)) where
  sorted := sorted.insert name inner
  below rest := by rw [List.singleton_append, shapeAt_insert, if_pos rfl]
  elsewhere query other := by
    cases query with
    | nil => rfl
    | cons first rest =>
        have differs : first ≠ name := fun same => other ⟨rest, by rw [same]; rfl⟩
        rw [shapeAt_insert, if_neg differs]

/-- What is added to a member is added to the object. -/
theorem Adds.member {members : List (Str × Json)} {before after value : Json} {path : List Str}
    {name : Str} (adds : Adds path value before after) (sorted : (object members).Sorted)
    (found : Keyed.find name members = some before) :
    Adds (name :: path) value (object members) (object (Keyed.insert name after members)) where
  sorted := sorted.insert name adds.sorted
  below rest := by
    rw [List.cons_append, shapeAt_insert, if_pos rfl]
    exact adds.below rest
  elsewhere query other := by
    cases query with
    | nil => rfl
    | cons first rest =>
        rw [shapeAt_insert]
        by_cases same : first = name
        · have aside : ¬ path <+: rest := fun inside =>
            other (same ▸ List.cons_prefix_cons.mpr ⟨rfl, inside⟩)
          have here : (object members).shapeAt (name :: rest) = before.shapeAt rest := by
            rw [shapeAt_cons]
            change (Keyed.find name members).bind _ = _
            rw [found]
            rfl
          rw [if_pos same, adds.elsewhere rest aside, same, here]
        · rw [if_neg same]

/-- A value can be added under a name of an object that the document has at a path. -/
theorem operationAdd_adds {json value : Json} {path : List Str} (name : Str)
    (sorted : json.Sorted) (inner : value.Sorted) (parent : json.shapeAt path = some .object) :
    ∃ after, operationAdd (path ++ [name]) value json = .ok after ∧
      Adds (path ++ [name]) value json after := by
  rw [operationAdd_concat]
  induction path generalizing json with
  | nil =>
      cases json with
      | object members => exact ⟨_, rfl, adds_insert name sorted inner⟩
      | null | bool | number | string | array => cases parent
  | cons first rest ih =>
      obtain ⟨members, same⟩ := isObject_of_shapeAt_cons parent
      subst same
      rw [shapeAt_cons] at parent
      obtain ⟨child, found, below⟩ := Option.bind_eq_some_iff.mp parent
      obtain ⟨after, added, adds⟩ := ih (sorted.of_find found) below
      have member : Keyed.find first members = some child := found
      refine ⟨object (Keyed.insert first after members), ?_, adds.member sorted member⟩
      unfold modifyAt
      rw [member]
      exact except_bind_eq_ok.mpr ⟨after, added, rfl⟩

end Write

section Additions

/-- An operation adds what a second document has at a path below that of the comparison: where
the first has an object at the parent and nothing at the path itself. -/
structure Addition (first second : Json) (tokens : List Str) (item : DiffItem) : Prop where
  adds : item.op = JsonDiffOperation.ADD
  plain : item.fromPath = none
  place : ∃ path name value, Pointer.parse item.path = .ok (tokens ++ (path ++ [name])) ∧
    item.value = some value ∧ first.shapeAt path = some .object ∧
      first.shapeAt (path ++ [name]) = none ∧ second.member (path ++ [name]) = some value

theorem diffItems_self (json : Json) (path : Str) : diffItems json json path = [] := by
  cases json with
  | array | object =>
      rw [diffItems]
      exact if_pos rfl
  | null | bool | number | string =>
      unfold diffItems
      exact if_pos rfl

/-- Compatible documents are equal or objects. -/
theorem Compatible.top {first second : Json} (compatible : Compatible first second) :
    first = second ∨
      ∃ members others, first = object members ∧ second = object others ∧ members ≠ others := by
  by_cases same : first = second
  · exact .inl same
  rcases compatible [] first second rfl rfl with equal | ⟨firstObject, secondObject⟩
  · exact .inl equal
  cases first with
  | null | bool | number | string | array => cases firstObject
  | object members =>
    cases second with
    | null | bool | number | string | array => cases secondObject
    | object others => exact .inr ⟨members, others, rfl, rfl, fun equal => same (equal ▸ rfl)⟩

/-- What compatible objects have under a name is compatible. -/
theorem Compatible.find {members others : List (Str × Json)} {name : Str} {value other : Json}
    (compatible : Compatible (object members) (object others))
    (found : Keyed.find name members = some value)
    (counterpart : Keyed.find name others = some other) : Compatible value other := by
  intro path left right inFirst inSecond
  refine compatible (name :: path) left right ?_ ?_
  · change (Keyed.find name members).bind _ = _
    rw [found]
    exact inFirst
  · change (Keyed.find name others).bind _ = _
    rw [counterpart]
    exact inSecond

/-- The comparison of the members of an object goes into those that the other one has too and
removes the others. -/
theorem mem_diffMembers {source target : List (Str × Json)} {path : Str} {item : DiffItem} :
    item ∈ diffMembers source target path ↔
      (∃ entry ∈ source, ∃ other, Keyed.find entry.1 target = some other ∧
        item ∈ diffItems entry.2 other (memberPath path entry.1)) ∨
      ∃ entry ∈ source, Keyed.find entry.1 target = none ∧
        item = removeItem (memberPath path entry.1) := by
  induction source with
  | nil => simp [diffMembers]
  | cons entry rest ih =>
      obtain ⟨key, value⟩ := entry
      rw [diffMembers, List.mem_append, ih]
      simp only [List.mem_cons, exists_eq_or_imp]
      cases found : Keyed.find key target with
      | none => simp [or_left_comm]
      | some other => simp [or_assoc]

theorem mem_addedMembers {source target : List (Str × Json)} {path : Str} {item : DiffItem} :
    item ∈ addedMembers path source target ↔
      ∃ entry ∈ target, Keyed.find entry.1 source = none ∧
        item = addItem (memberPath path entry.1) entry.2 := by
  unfold addedMembers
  rw [List.mem_map]
  constructor
  · intro added
    obtain ⟨entry, kept, same⟩ := added
    obtain ⟨member, absent⟩ := List.mem_filter.mp kept
    exact ⟨entry, member, Option.isNone_iff_eq_none.mp absent, same.symm⟩
  · intro missing
    obtain ⟨entry, member, absent, same⟩ := missing
    exact ⟨entry, List.mem_filter.mpr ⟨member, Option.isNone_iff_eq_none.mpr absent⟩, same.symm⟩

theorem diffItems_object {members others : List (Str × Json)} (differ : members ≠ others)
    (path : Str) : diffItems (object members) (object others) path =
      diffMembers members others path ++ addedMembers path members others := by
  rw [diffItems]
  exact if_neg differ

theorem shapeAt_object {members : List (Str × Json)} {name : Str} {value : Json}
    (found : Keyed.find name members = some value) (rest : List Str) :
    (object members).shapeAt (name :: rest) = value.shapeAt rest := by
  rw [shapeAt_cons]
  change (Keyed.find name members).bind _ = _
  rw [found]
  rfl

/-- What is added to a member is added to the object. -/
theorem Addition.member {members others : List (Str × Json)} {name : Str} {value other : Json}
    {tokens : List Str} {item : DiffItem} (addition : Addition value other (tokens ++ [name]) item)
    (found : Keyed.find name members = some value)
    (counterpart : Keyed.find name others = some other) :
    Addition (object members) (object others) tokens item := by
  obtain ⟨path, last, added, parsed, carries, parent, absent, present⟩ := addition.place
  refine ⟨addition.adds, addition.plain, name :: path, last, added, ?_, carries, ?_, ?_, ?_⟩
  · rw [parsed, List.append_assoc]
    rfl
  · rw [shapeAt_object found, parent]
  · rw [List.cons_append, shapeAt_object found, absent]
  · change (Keyed.find name others).bind _ = _
    rw [counterpart]
    exact present

/-- The additions of a difference add what is missing. -/
theorem addition_of_mem {first second : Json} (firstSorted : first.Sorted)
    (secondSorted : second.Sorted) (compatible : Compatible first second) {path : Str}
    {tokens : List Str} (parsed : Pointer.parse path = .ok tokens) {item : DiffItem}
    (member : item ∈ diffItems first second path) (adds : item.op = JsonDiffOperation.ADD) :
    Addition first second tokens item := by
  rcases compatible.top with same | ⟨members, others, sameFirst, sameSecond, differ⟩
  · rw [same, diffItems_self] at member
    cases member
  subst sameFirst sameSecond
  rw [diffItems_object differ, List.mem_append, mem_diffMembers, mem_addedMembers] at member
  rcases member with (⟨entry, present, other, counterpart, inside⟩ | ⟨entry, _, _, removes⟩) |
    ⟨entry, present, absent, same⟩
  · have found := (Keyed.find_eq_some_iff firstSorted.1).mpr (show (entry.1, entry.2) ∈ members from present)
    have smaller : sizeOf entry.2 < sizeOf (object members) := by
      have inner := sizeOf_find found
      simp only [object.sizeOf_spec]
      omega
    exact (addition_of_mem (firstSorted.of_find found) (secondSorted.of_find counterpart)
      (compatible.find found counterpart) (parse_memberPath parsed entry.1) inside adds).member
        found counterpart
  · rw [removes] at adds
    exact absurd (show JsonDiffOperation.REMOVE = JsonDiffOperation.ADD from adds) (by decide)
  · have found := (Keyed.find_eq_some_iff secondSorted.1).mpr (show (entry.1, entry.2) ∈ others from present)
    subst same
    refine ⟨rfl, rfl, [], entry.1, entry.2, parse_memberPath parsed entry.1, rfl, rfl, ?_, ?_⟩
    · rw [List.nil_append, shapeAt_cons]
      change (Keyed.find entry.1 members).bind _ = _
      rw [absent]
      rfl
    · change (Keyed.find entry.1 others).bind _ = _
      rw [found]
      rfl
termination_by sizeOf first

/-- Where the second document has something that the first has not, an operation adds it or what
it stands in. -/
theorem exists_addition {first second : Json} (compatible : Compatible first second) {path : Str}
    {tokens query : List Str} (parsed : Pointer.parse path = .ok tokens)
    (absent : first.shapeAt query = none) {shape : Shape}
    (present : second.shapeAt query = some shape) :
    ∃ item ∈ diffItems first second path, item.op = JsonDiffOperation.ADD ∧
      ∃ place, Pointer.parse item.path = .ok (tokens ++ place) ∧ place <+: query := by
  induction query generalizing first second path tokens with
  | nil => cases absent
  | cons name rest ih =>
      rcases compatible.top with same | ⟨members, others, sameFirst, sameSecond, differ⟩
      · rw [same, present] at absent
        cases absent
      subst sameFirst sameSecond
      rw [diffItems_object differ]
      rw [shapeAt_cons] at present
      obtain ⟨other, counterpart, below⟩ := Option.bind_eq_some_iff.mp present
      cases found : Keyed.find name members with
      | none =>
          refine ⟨addItem (memberPath path name) other, List.mem_append_right _ ?_, rfl, [name],
            parse_memberPath parsed name, ⟨rest, rfl⟩⟩
          exact mem_addedMembers.mpr ⟨(name, other), Keyed.mem_of_find counterpart, found, rfl⟩
      | some value =>
          rw [shapeAt_object found] at absent
          obtain ⟨item, inside, adds, place, placed, starts⟩ :=
            ih (compatible.find found counterpart) (parse_memberPath parsed name) absent below
          refine ⟨item, List.mem_append_left _ ?_, adds, name :: place, ?_, ?_⟩
          · exact mem_diffMembers.mpr (.inl ⟨(name, value), Keyed.mem_of_find found, other,
              counterpart, inside⟩)
          · rw [placed, List.append_assoc]
            rfl
          · exact List.cons_prefix_cons.mpr ⟨rfl, starts⟩

end Additions

section Apply

variable {first second : Json}

theorem Sorted.of_member {json value : Json} {path : List Str} (sorted : json.Sorted)
    (found : json.member path = some value) : value.Sorted := by
  induction path generalizing json with
  | nil =>
      cases found
      exact sorted
  | cons name rest ih =>
      obtain ⟨child, here, below⟩ := Option.bind_eq_some_iff.mp found
      exact ih (sorted.of_find here) below

/-- A document that has objects wherever the first one has. -/
def KeepsObjects (first current : Json) : Prop :=
  ∀ path, first.shapeAt path = some .object → current.shapeAt path = some .object

/-- A path that an operation writes at, or one below it. -/
def Covers (item : DiffItem) (query : List Str) : Prop :=
  ∃ place, Pointer.parse item.path = .ok place ∧ place <+: query

/-- One addition writes what the second document has at a path that the first one lacks. -/
theorem applyItem_addition {current : Json} {item : DiffItem}
    (addition : Addition first second [] item) (secondSorted : second.Sorted)
    (sorted : current.Sorted) (keeps : KeepsObjects first current) :
    ∃ after, applyItem item current = .ok after ∧ after.Sorted ∧ KeepsObjects first after ∧
      ∀ query, (Covers item query → after.shapeAt query = second.shapeAt query) ∧
        (¬ Covers item query → after.shapeAt query = current.shapeAt query) := by
  obtain ⟨path, name, value, parsed, carries, parent, absent, present⟩ := addition.place
  rw [List.nil_append] at parsed
  obtain ⟨after, added, adds⟩ :=
    operationAdd_adds name sorted (secondSorted.of_member present) (keeps path parent)
  refine ⟨after, ?_, adds.sorted, ?_, fun query => ⟨?_, ?_⟩⟩
  · refine except_bind_eq_ok.mpr ⟨_, parsed, ?_⟩
    rw [if_pos addition.adds, carries]
    exact added
  · intro other object
    rw [adds.elsewhere other ?_]
    · exact keeps other object
    · intro inside
      obtain ⟨rest, same⟩ := inside
      rw [← same, shapeAt_append_of_none absent] at object
      cases object
  · intro covered
    obtain ⟨place, placed, rest, same⟩ := covered
    cases parsed.symm.trans placed
    rw [← same, adds.below rest, shapeAt_append, present]
    rfl
  · intro uncovered
    exact adds.elsewhere query fun inside => uncovered ⟨_, parsed, inside⟩

/-- All of them lay the second document under the first where they write. -/
theorem applyItems_additions {items : List DiffItem} {current : Json}
    (additions : ∀ item ∈ items, Addition first second [] item) (secondSorted : second.Sorted)
    (sorted : current.Sorted) (keeps : KeepsObjects first current) :
    ∃ after, applyItems items current = .ok after ∧ after.Sorted ∧
      ∀ query, ((∃ item ∈ items, Covers item query) → after.shapeAt query = second.shapeAt query) ∧
        ((¬ ∃ item ∈ items, Covers item query) →
          after.shapeAt query = current.shapeAt query) := by
  induction items generalizing current with
  | nil =>
      refine ⟨current, rfl, sorted, fun query => ⟨?_, fun _ => rfl⟩⟩
      intro impossible
      obtain ⟨item, member, _⟩ := impossible
      cases member
  | cons item rest ih =>
      obtain ⟨addition, others⟩ := List.forall_mem_cons.mp additions
      obtain ⟨next, applied, nextSorted, nextKeeps, here⟩ :=
        applyItem_addition addition secondSorted sorted keeps
      obtain ⟨after, appliedRest, afterSorted, later⟩ := ih others nextSorted nextKeeps
      refine ⟨after, except_bind_eq_ok.mpr ⟨next, applied, appliedRest⟩, afterSorted,
        fun query => ?_⟩
      simp only [List.mem_cons, exists_eq_or_imp, not_or]
      refine ⟨fun covered => ?_, fun uncovered => ?_⟩
      · by_cases below : ∃ item ∈ rest, Covers item query
        · exact (later query).1 below
        · rw [(later query).2 below]
          exact (here query).1 (covered.resolve_right below)
      · rw [(later query).2 uncovered.2, (here query).2 uncovered.1]

/-- The additions of a difference. -/
def additions (first second : Json) : List DiffItem :=
  (diffItems first second []).filter fun item => item.op = JsonDiffOperation.ADD

/-- They add what the first document lacks. -/
theorem addition_of_mem_additions (firstSorted : first.Sorted) (secondSorted : second.Sorted)
    (compatible : Compatible first second) :
    ∀ item ∈ additions first second, Addition first second [] item := by
  intro item kept
  obtain ⟨member, adds⟩ := List.mem_filter.mp kept
  exact addition_of_mem firstSorted secondSorted compatible rfl member (of_decide_eq_true adds)

/-- The additions of a difference lay the second document under the first. -/
theorem applyItems_over (firstSorted : first.Sorted) (secondSorted : second.Sorted)
    (compatible : Compatible first second) :
    ∃ after, applyItems (additions first second) first = .ok after ∧ after.Sorted ∧
      after.shapeAt = Overlay.overlaid first.shapeAt second.shapeAt := by
  have each := addition_of_mem_additions firstSorted secondSorted compatible
  obtain ⟨after, applied, sorted, result⟩ :=
    applyItems_additions each secondSorted firstSorted fun _ object => object
  refine ⟨after, applied, sorted, funext fun query => ?_⟩
  unfold Overlay.overlaid
  by_cases covered : ∃ item ∈ additions first second, Covers item query
  · rw [(result query).1 covered]
    obtain ⟨item, kept, place, placed, rest, same⟩ := covered
    obtain ⟨path, name, _, parsed, _, _, absent, _⟩ := (each item kept).place
    rw [List.nil_append] at parsed
    cases parsed.symm.trans placed
    rw [← same, shapeAt_append_of_none absent, Option.none_or]
  · rw [(result query).2 covered]
    cases upper : first.shapeAt query with
    | some shape => rfl
    | none =>
        cases lower : second.shapeAt query with
        | none => rfl
        | some shape =>
            have root : Pointer.parse [] = .ok [] := rfl
            obtain ⟨item, member, adds, place, placed, starts⟩ :=
              exists_addition compatible root upper lower
            exact absurd ⟨item, List.mem_filter.mpr ⟨member, decide_eq_true adds⟩, place,
              placed, starts⟩ covered

end Apply

end FlexConfig.Json
