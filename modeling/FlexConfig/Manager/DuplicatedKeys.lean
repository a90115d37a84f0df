import FlexConfig.Json.Callback

/-! # Duplicated keys

Before a configuration is loaded its file is parsed once more, only to look for a key that an
object has twice. The callback keeps a stack with the keys of each open object, and once it has
found a key again it looks at nothing more and refuses everything. The stack follows the objects
of the document until then, so that the answer is exact (`CheckIfThereIsDuplicatedKey_exact`).
-/

namespace FlexConfig

open Procedure CallbackParser

/-- What `CheckIfThereIsDuplicatedKey` captures in its callback. -/
structure KeyCheck where
  is_duplicated_key : Bool := false
  parse_stack : List (List Json) := []

/-- The callback of `CheckIfThereIsDuplicatedKey`. -/
def check_duplicate_keys : ParserCallback KeyCheck := fun _ event => do
  let check ← get
  if check.is_duplicated_key then return false
  else
    match event with
    | .object_start => do
      set { check with parse_stack := [] :: check.parse_stack }
      return true
    | .object_end =>
      match check.parse_stack with
      | [] => throw .crashed
      | _ :: outer => do
        set { check with parse_stack := outer }
        return true
    | .key parsed =>
      match check.parse_stack with
      | [] => throw .crashed
      | seen :: outer =>
        if parsed ∈ seen then do
          set { check with is_duplicated_key := true }
          return false
        else do
          set { check with parse_stack := (parsed :: seen) :: outer }
          return true
    | _ => return true

/-- `CheckIfThereIsDuplicatedKey` of the document in a file. -/
def CheckIfThereIsDuplicatedKey (document : Json) : Attempt Bool :=
  match parse check_duplicate_keys document ({}, {}) with
  | .ok _ state => .ok state.2.is_duplicated_key
  | .error reason _ => .error reason

namespace Json

/-- A document is part of another. -/
inductive Within : (inner outer : Json) → Prop
  | self {document : Json} : Within document document
  | member {inner value : Json} {name : Str} {members : List (Str × Json)}
      (isMember : (name, value) ∈ members) (inside : Within inner value) :
      Within inner (.object members)
  | element {inner element : Json} {elements : List Json} (isElement : element ∈ elements)
      (inside : Within inner element) : Within inner (.array elements)

/-- Some object of a document has a key twice. -/
def RepeatsKey (document : Json) : Prop :=
  ∃ members, Within (.object members) document ∧ ¬ (Keyed.keys members).Nodup

mutual

/-- The same, looked for on the way through the document. -/
def Repeats : Json → Prop
  | .object members => RepeatsMembers [] members
  | .array elements => RepeatsElements elements
  | .null | .bool _ | .number _ | .string _ => False

/-- A key of the members has been seen or comes again, or a value repeats a key. -/
def RepeatsMembers : (seen : List Str) → List (Str × Json) → Prop
  | _, [] => False
  | seen, (name, value) :: rest =>
    name ∈ seen ∨ Repeats value ∨ RepeatsMembers (name :: seen) rest

def RepeatsElements : List Json → Prop
  | [] => False
  | element :: rest => Repeats element ∨ RepeatsElements rest

end

theorem repeatsElements_iff {elements : List Json} :
    RepeatsElements elements ↔ ∃ element ∈ elements, Repeats element := by
  induction elements with
  | nil => exact iff_of_false id nofun
  | cons element rest ih => rw [RepeatsElements, ih, List.exists_mem_cons_iff]

theorem repeatsMembers_iff {seen : List Str} {members : List (Str × Json)} :
    RepeatsMembers seen members ↔
      (∃ name ∈ Keyed.keys members, name ∈ seen) ∨ ¬ (Keyed.keys members).Nodup ∨
        ∃ member ∈ members, Repeats member.2 := by
  induction members generalizing seen with
  | nil => simp [RepeatsMembers, Keyed.keys]
  | cons member rest ih =>
      obtain ⟨name, value⟩ := member
      have split : ∀ other ∈ Keyed.keys rest, other ∈ name :: seen ↔ other = name ∨ other ∈ seen :=
        fun _ _ => List.mem_cons
      rw [RepeatsMembers, ih]
      simp only [Keyed.keys, List.map_cons, List.exists_mem_cons_iff, List.nodup_cons] at *
      grind

theorem repeatsKey_object {members : List (Str × Json)} :
    RepeatsKey (.object members) ↔
      ¬ (Keyed.keys members).Nodup ∨ ∃ member ∈ members, RepeatsKey member.2 := by
  constructor
  · rintro ⟨inner, inside, twice⟩
    cases inside with
    | self => exact .inl twice
    | member isMember inside => exact .inr ⟨_, isMember, inner, inside, twice⟩
  · rintro (twice | ⟨_, isMember, inner, inside, twice⟩)
    · exact ⟨members, .self, twice⟩
    · exact ⟨inner, .member isMember inside, twice⟩

theorem repeatsKey_array {elements : List Json} :
    RepeatsKey (.array elements) ↔ ∃ element ∈ elements, RepeatsKey element := by
  constructor
  · rintro ⟨inner, inside, twice⟩
    cases inside with
    | element isElement inside => exact ⟨_, isElement, inner, inside, twice⟩
  · rintro ⟨_, isElement, inner, inside, twice⟩
    exact ⟨inner, .element isElement inside, twice⟩

mutual

theorem repeats_iff : ∀ document : Json, Repeats document ↔ RepeatsKey document
  | .object members => by
      rw [Repeats, repeatsMembers_iff, repeatsKey_object, or_iff_right (by simp)]
      exact or_congr_right (repeats_members_iff members)
  | .array elements => by
      rw [Repeats, repeatsElements_iff, repeatsKey_array]
      exact repeats_elements_iff elements
  | .null | .bool _ | .number _ | .string _ =>
      iff_of_false id fun ⟨_, inside, _⟩ => nomatch inside

theorem repeats_members_iff : ∀ members : List (Str × Json),
    (∃ member ∈ members, Repeats member.2) ↔ ∃ member ∈ members, RepeatsKey member.2
  | [] => iff_of_false nofun nofun
  | (name, value) :: rest => by
      rw [List.exists_mem_cons_iff, List.exists_mem_cons_iff, repeats_iff value,
        repeats_members_iff rest]

theorem repeats_elements_iff : ∀ elements : List Json,
    (∃ element ∈ elements, Repeats element) ↔ ∃ element ∈ elements, RepeatsKey element
  | [] => iff_of_false nofun nofun
  | element :: rest => by
      rw [List.exists_mem_cons_iff, List.exists_mem_cons_iff, repeats_iff element,
        repeats_elements_iff rest]

end

end Json

section Callback

variable {depth : Nat} {stack : List (List Json)} {seen : List Str}

/-- After the first key that comes again everything is refused. -/
theorem refusesAll_of_duplicated (stack : List (List Json)) :
    RefusesAll check_duplicate_keys ⟨true, stack⟩ := fun _ _ => rfl

theorem check_key_seen {name : Str} (again : name ∈ seen) :
    check_duplicate_keys depth (.key (.string name)) ⟨false, seen.map .string :: stack⟩ =
      .ok false ⟨true, seen.map .string :: stack⟩ := by
  have present : Json.string name ∈ seen.map Json.string := List.mem_map_of_mem again
  unfold check_duplicate_keys
  rw [get_bind]
  exact congrFun (if_pos present) _

theorem check_key_new {name : Str} (new : name ∉ seen) :
    check_duplicate_keys depth (.key (.string name)) ⟨false, seen.map .string :: stack⟩ =
      .ok true ⟨false, (name :: seen).map .string :: stack⟩ := by
  have absent : Json.string name ∉ seen.map Json.string := by
    intro present
    obtain ⟨other, member, same⟩ := List.mem_map.mp present
    cases same
    exact new member
  unfold check_duplicate_keys
  rw [get_bind]
  exact congrFun (if_neg absent) _

end Callback

/-- How the check of a part of a document ends: it has found no key again and is back at the
stack it began with, or it has found one. The containers are as before. -/
def Checked (parser : CallbackParser) (stack : List (List Json)) (repeated : Prop)
    (result : EStateM.Result Halt (CallbackParser × KeyCheck) PUnit) : Prop :=
  (¬ repeated ∧ result = .ok ⟨⟩ (parser, ⟨false, stack⟩)) ∨
    (repeated ∧ ∃ keys left,
      result = .ok ⟨⟩ ({ parser with key_keep_stack := keys }, ⟨true, left⟩))

/-- A key that comes again is refused, and with it all that comes after. -/
theorem run_of_key_seen {name : Str} {value : Json} {seen : List Str} {parser : CallbackParser}
    (again : name ∈ seen) (opened : parser.keep_stack ≠ []) (rest : List (Str × Json))
    (stack : List (List Json)) :
    ∃ keys, forEach (handle check_duplicate_keys) (Json.memberEvents ((name, value) :: rest))
      (parser, ⟨false, seen.map .string :: stack⟩) =
        .ok ⟨⟩ ({ parser with key_keep_stack := keys }, ⟨true, seen.map .string :: stack⟩) := by
  have found : handle check_duplicate_keys (.key name)
      (parser, ⟨false, seen.map .string :: stack⟩) = _ := key_refused (check_key_seen again)
  have ignores := refusesAll_of_duplicated (seen.map .string :: stack)
  obtain ⟨between, ranValue⟩ := run_refused ignores value
    { parser with key_keep_stack := false :: parser.key_keep_stack } opened
  obtain ⟨keys, ranRest⟩ := run_refused_members ignores rest
    { parser with key_keep_stack := between } opened
  refine ⟨keys, ?_⟩
  rw [Json.memberEvents, List.cons_append, forEach_cons_of_ok found]
  exact (forEach_append_of_ok ranValue).trans ranRest

mutual

/-- The check of a document in a place where it is kept. -/
theorem checked_document : ∀ (document : Json) (parser : CallbackParser)
    (stack : List (List Json)) {keeps keys : List Bool}, parser.keep_stack = true :: keeps →
      parser.place = some keys →
        Checked { parser with key_keep_stack := keys } stack document.Repeats
          (forEach (handle check_duplicate_keys) document.events (parser, ⟨false, stack⟩))
  | .object members, parser, stack, keeps, keys, kept, takes => by
      have started : handle check_duplicate_keys .start_object (parser, ⟨false, stack⟩) =
          .ok ⟨⟩ (⟨some .object :: parser.ref_stack, true :: parser.keep_stack, keys⟩,
            ⟨false, [] :: stack⟩) := start_of_place takes rfl
      rw [Json.events, List.cons_append, forEach_cons_of_ok started]
      rcases checked_members members ⟨_, _, keys⟩ [] stack rfl rfl with
        ⟨unrepeated, top, ran⟩ | ⟨again, others, left, ran⟩
      · refine .inl ⟨unrepeated, (forEach_append_of_ok ran).trans ?_⟩
        exact bind_of_ok (end_object_of_answer rfl)
      · refine .inr ⟨again, others, left, (forEach_append_of_ok ran).trans ?_⟩
        exact bind_of_ok (end_object_of_answer rfl)
  | .array elements, parser, stack, keeps, keys, kept, takes => by
      have started : handle check_duplicate_keys .start_array (parser, ⟨false, stack⟩) =
          .ok ⟨⟩ (⟨some .array :: parser.ref_stack, true :: parser.keep_stack, keys⟩,
            ⟨false, stack⟩) := start_of_place takes rfl
      have built := built_of_place takes
      rw [Json.events, List.cons_append, forEach_cons_of_ok started]
      rcases checked_elements elements ⟨_, _, keys⟩ stack rfl rfl with
        ⟨unrepeated, ran⟩ | ⟨again, others, left, ran⟩
      · refine .inl ⟨unrepeated, (forEach_append_of_ok ran).trans ?_⟩
        exact bind_of_ok (end_array_of_answer built rfl)
      · refine .inr ⟨again, others, left, (forEach_append_of_ok ran).trans ?_⟩
        exact bind_of_ok (end_array_of_answer built rfl)
  | .null, parser, stack, keeps, keys, kept, takes
  | .bool _, parser, stack, keeps, keys, kept, takes
  | .number _, parser, stack, keeps, keys, kept, takes
  | .string _, parser, stack, keeps, keys, kept, takes =>
      .inl ⟨id, bind_of_ok (bind_of_ok (handle_value_of_place kept takes rfl))⟩

/-- The check of the members of an object, some keys of which have been seen. -/
theorem checked_members : ∀ (members : List (Str × Json)) (parser : CallbackParser)
    (seen : List Str) (stack : List (List Json)) {keeps : List Bool}
    {refs : List (Option Container)}, parser.keep_stack = true :: keeps →
      parser.ref_stack = some .object :: refs →
        (¬ Json.RepeatsMembers seen members ∧ ∃ top,
          forEach (handle check_duplicate_keys) (Json.memberEvents members)
            (parser, ⟨false, seen.map .string :: stack⟩) = .ok ⟨⟩ (parser, ⟨false, top :: stack⟩)) ∨
        (Json.RepeatsMembers seen members ∧ ∃ keys left,
          forEach (handle check_duplicate_keys) (Json.memberEvents members)
            (parser, ⟨false, seen.map .string :: stack⟩) =
              .ok ⟨⟩ ({ parser with key_keep_stack := keys }, ⟨true, left⟩))
  | [], parser, seen, stack, _, _, _, _ => .inl ⟨id, seen.map .string, rfl⟩
  | (name, value) :: rest, parser, seen, stack, keeps, refs, kept, inside => by
      by_cases again : name ∈ seen
      · obtain ⟨keys, ran⟩ := run_of_key_seen again
          (kept ▸ List.cons_ne_nil _ _ : parser.keep_stack ≠ []) rest stack
        exact .inr ⟨.inl again, keys, _, ran⟩
      · have isNew : handle check_duplicate_keys (.key name)
            (parser, ⟨false, seen.map .string :: stack⟩) = _ :=
          key_of_answer (inside ▸ List.cons_ne_nil _ _) (check_key_new again)
        rw [Json.memberEvents, List.cons_append, forEach_cons_of_ok isNew]
        have takes : CallbackParser.place
            { parser with key_keep_stack := true :: parser.key_keep_stack } =
              some parser.key_keep_stack := by
          rw [place, inside]
        rcases checked_document value { parser with key_keep_stack := true :: parser.key_keep_stack }
          ((name :: seen).map .string :: stack) kept takes with
          ⟨unrepeated, ran⟩ | ⟨repeated, others, left, ran⟩
        · rcases checked_members rest parser (name :: seen) stack kept inside with
            ⟨unrepeatedRest, top, ranRest⟩ | ⟨repeated, keys, left, ranRest⟩
          · refine .inl ⟨?_, top, (forEach_append_of_ok ran).trans ranRest⟩
            rintro (impossible | impossible | impossible)
            · exact again impossible
            · exact unrepeated impossible
            · exact unrepeatedRest impossible
          · exact .inr ⟨.inr (.inr repeated), keys, left, (forEach_append_of_ok ran).trans ranRest⟩
        · obtain ⟨keys, ranRest⟩ := run_refused_members (refusesAll_of_duplicated left) rest
            { parser with key_keep_stack := others } (kept ▸ List.cons_ne_nil _ _)
          exact .inr ⟨.inr (.inl repeated), keys, left, (forEach_append_of_ok ran).trans ranRest⟩

theorem checked_elements : ∀ (elements : List Json) (parser : CallbackParser)
    (stack : List (List Json)) {keeps : List Bool} {refs : List (Option Container)},
      parser.keep_stack = true :: keeps → parser.ref_stack = some .array :: refs →
        Checked parser stack (Json.RepeatsElements elements)
          (forEach (handle check_duplicate_keys) (Json.elementEvents elements)
            (parser, ⟨false, stack⟩))
  | [], parser, stack, _, _, _, _ => .inl ⟨id, rfl⟩
  | element :: rest, parser, stack, keeps, refs, kept, inside => by
      have takes : parser.place = some parser.key_keep_stack := by
        rw [place, inside]
      rw [Json.elementEvents]
      rcases checked_document element parser stack kept takes with
        ⟨unrepeated, ran⟩ | ⟨repeated, others, left, ran⟩
      · rcases checked_elements rest parser stack kept inside with
          ⟨unrepeatedRest, ranRest⟩ | ⟨repeated, keys, left, ranRest⟩
        · refine .inl ⟨?_, (forEach_append_of_ok ran).trans ranRest⟩
          rintro (impossible | impossible)
          · exact unrepeated impossible
          · exact unrepeatedRest impossible
        · exact .inr ⟨.inr repeated, keys, left, (forEach_append_of_ok ran).trans ranRest⟩
      · have opened : parser.keep_stack ≠ [] := kept ▸ List.cons_ne_nil _ _
        obtain ⟨keys, ranRest⟩ := run_refused_elements (refusesAll_of_duplicated left) rest
          { parser with key_keep_stack := others } opened
        exact .inr ⟨.inl repeated, keys, left, (forEach_append_of_ok ran).trans ranRest⟩

end

/-- The check of a document never reads or pops an empty stack, and it answers `true` exactly
where some object of the document has a key twice. -/
theorem CheckIfThereIsDuplicatedKey_exact (document : Json) :
    ∃ found, CheckIfThereIsDuplicatedKey document = .ok found ∧
      (found = true ↔ document.RepeatsKey) := by
  have ran := checked_document document {} [] rfl rfl
  rw [← Json.repeats_iff]
  unfold CheckIfThereIsDuplicatedKey parse
  rcases ran with ⟨unrepeated, ran⟩ | ⟨again, keys, left, ran⟩
  · refine ⟨false, ?_, iff_of_false Bool.false_ne_true unrepeated⟩
    rw [ran]
  · refine ⟨true, ?_, iff_of_true rfl again⟩
    rw [ran]

end FlexConfig
