import FlexConfig.Manager.Patches
import FlexConfig.Tree.Paths

/-! # The document a candidate is made with

The routine that makes a candidate goes through its document by the paths of the operations, with
an access that creates what is missing. For a computed difference all of it is there but one thing:
the path above a member of the top is read as that of a member without a name, which is created
where the schema that is looked up for the root has nodes to load.
-/

namespace FlexConfig

open Procedure Json

section Names

/-- A name that stands for itself in paths and pointers. -/
def IsPlainName (name : Str) : Prop := XPath.IsToken name ∧ '~' ∉ name

instance (name : Str) : Decidable (IsPlainName name) := inferInstanceAs (Decidable ((_ ∧ _) ∧ _))

mutual

/-- All members have plain names. -/
def Json.HasPlainNames : Json → Prop
  | .null | .bool _ | .number _ | .string _ => True
  | .array elements => HavePlainNames elements
  | .object members => MembersHavePlainNames members

def HavePlainNames : List Json → Prop
  | [] => True
  | element :: rest => element.HasPlainNames ∧ HavePlainNames rest

def MembersHavePlainNames : List (Str × Json) → Prop
  | [] => True
  | (name, value) :: rest => IsPlainName name ∧ value.HasPlainNames ∧ MembersHavePlainNames rest

end

theorem plainNames_of_mem : ∀ {members : List (Str × Json)}, MembersHavePlainNames members →
    ∀ entry ∈ members, IsPlainName entry.1 ∧ entry.2.HasPlainNames
  | _ :: _, ⟨here, inner, rest⟩, entry, member => by
      rcases List.mem_cons.mp member with rfl | later
      · exact ⟨here, inner⟩
      · exact plainNames_of_mem rest entry later

theorem plainNames_of_mem_elements : ∀ {elements : List Json}, HavePlainNames elements →
    ∀ element ∈ elements, element.HasPlainNames
  | _ :: _, ⟨here, rest⟩, element, member => by
      rcases List.mem_cons.mp member with rfl | later
      · exact here
      · exact plainNames_of_mem_elements rest element later

/-- The text of an index is a plain name. -/
theorem isPlainName_of_arrayIndex {token : Str} {index : Nat}
    (indexed : arrayIndex token = .ok index) : IsPlainName token := by
  unfold arrayIndex at indexed
  dsimp only at indexed
  split at indexed
  · next conditions =>
      have digits : ∀ c ∈ token, c.isDigit = true := List.all_eq_true.mp conditions.2.1
      exact ⟨⟨conditions.1, fun slash => absurd (digits _ slash) (by decide)⟩,
        fun tilde => absurd (digits _ tilde) (by decide)⟩
  · cases indexed

/-- What is found in a document with plain names is found under plain names. -/
theorem isPlainName_of_atPointer {json value : Json} {tokens : List Str}
    (plain : json.HasPlainNames) (found : json.atPointer tokens = .ok value) :
    ∀ token ∈ tokens, IsPlainName token := by
  induction tokens generalizing json with
  | nil => exact fun _ impossible => absurd impossible List.not_mem_nil
  | cons token rest ih =>
      cases json with
      | object members =>
          obtain ⟨inner, here, below⟩ := atPointer_object_cons found
          obtain ⟨name, inside⟩ := plainNames_of_mem plain _ (Keyed.mem_of_find here)
          exact List.forall_mem_cons.mpr ⟨name, ih inside below⟩
      | array elements =>
          obtain ⟨_, index, inner, indexed, here, below⟩ := atPointer_array_cons found
          exact List.forall_mem_cons.mpr ⟨isPlainName_of_arrayIndex indexed,
            ih (plainNames_of_mem_elements plain inner (List.mem_of_getElem? here)) below⟩
      | null | bool | number | string => cases found

variable {tokens : List Str}

theorem escape_of_plain {name : Str} (noSlash : '/' ∉ name) (noTilde : '~' ∉ name) :
    Pointer.escape name = name := by
  induction name with
  | nil => rfl
  | cons c rest ih =>
      obtain ⟨slash, slashes⟩ := not_or.mp (mt List.mem_cons.mpr noSlash)
      obtain ⟨tilde, tildes⟩ := not_or.mp (mt List.mem_cons.mpr noTilde)
      rw [escape_plain (Ne.symm tilde) (Ne.symm slash), ih slashes tildes]

/-- Plain names are printed as a pointer as they are joined to a path. -/
theorem print_eq_join (plain : ∀ token ∈ tokens, IsPlainName token) :
    Pointer.print tokens = XPath.join tokens :=
  List.flatMap_congr fun token member => congrArg (List.cons '/')
    (escape_of_plain (plain token member).1.2 (plain token member).2)

theorem parse_print (tokens : List Str) : Pointer.parse (Pointer.print tokens) = .ok tokens := by
  induction tokens using List.reverseRecOn with
  | nil => rfl
  | append_singleton before token ih =>
      have printed : Pointer.print (before ++ [token]) = memberPath (Pointer.print before) token := by
        simp [Pointer.print, memberPath]
      rw [printed]
      exact parse_memberPath ih token

/-- What is read of a path of plain names above the last token are names of the pointer with this
text above its last one: all of them, unless there is a NUL. -/
theorem parse_of_pointer {path : Str} (parsed : Pointer.parse path = .ok tokens)
    (plain : ∀ token ∈ tokens, IsPlainName token) :
    (XPath.parse path).dropLast <+: tokens.dropLast := by
  have cut : Text.pieces '/' path = tokens := by
    rw [← Pointer.print_parse parsed, print_eq_join plain]
    exact XPath.pieces_join fun token member => (plain token member).1
  by_cases inside : Text.NUL ∈ path
  · obtain ⟨above, name, below, split, _, _, read⟩ := XPath.parse_of_mem inside
    rw [cut] at split
    have upper : above <+: tokens.dropLast := by
      rw [split, List.dropLast_append_of_ne_nil (List.cons_ne_nil _ _)]
      exact List.prefix_append _ _
    refine List.IsPrefix.trans ?_ upper
    have apart : '/' ∉ Text.c_str name := fun separator => by
      have isToken := plain name (split ▸ List.mem_append_right _ List.mem_cons_self)
      exact isToken.1.2 ((Text.c_str_isPrefix name).subset separator)
    rw [read]
    by_cases empty : Text.c_str name = []
    · rw [empty, Text.pieces_nil, List.append_nil]
      exact List.dropLast_prefix _
    · rw [Text.pieces_token empty apart, List.dropLast_concat]
  · rw [XPath.parse_of_notMem inside, cut]

/-- The path above plain names is the pointer to them, or to a member without a name where there
are none. -/
theorem parse_mergeTokens (plain : ∀ token ∈ tokens, IsPlainName token) :
    Pointer.parse (XPath.mergeTokens tokens) = .ok (if tokens = [] then [[]] else tokens) := by
  rw [XPath.mergeTokens_eq fun token member => (plain token member).1]
  split
  · rfl
  · rw [← print_eq_join plain]
    exact parse_print tokens

end Names

section Nameless

variable {json target after value : Json} {tokens : List Str}

/-- The requested document, or the one with a member without a name. -/
def AlmostTarget (target json : Json) : Prop := json = target ∨ target.touched [[]] = .ok json

/-- Only an object has members without a name. -/
theorem touched_nameless (created : json.touched [[]] = .ok after) :
    ∃ members, json = .object members ∧
      after = .object (Keyed.insert [] ((Keyed.find [] members).getD .null) members) := by
  cases json with
  | object members =>
      rw [touched] at created
      exact ⟨members, rfl, (Except.ok.inj created).symm⟩
  | array elements =>
      rw [touched] at created
      cases created
  | null | bool _ | number _ | string _ => cases created

variable (almost : AlmostTarget target json)
include almost

theorem AlmostTarget.inOrder (sorted : target.Sorted) : json.Sorted := by
  rcases almost with rfl | created
  · exact sorted
  · exact sorted.touched created

/-- What is found under plain names is found there with a member without a name, too. -/
theorem AlmostTarget.atPointer (plain : ∀ token ∈ tokens, IsPlainName token) (below : tokens ≠ [])
    (found : target.atPointer tokens = .ok value) : json.atPointer tokens = .ok value := by
  rcases almost with rfl | created
  · exact found
  · obtain ⟨members, rfl, rfl⟩ := touched_nameless created
    obtain ⟨token, rest, rfl⟩ := List.exists_cons_of_ne_nil below
    obtain ⟨inner, here, inside⟩ := atPointer_object_cons found
    have named : token ≠ [] := (plain token List.mem_cons_self).1.1
    have there : Keyed.find token
        (Keyed.insert [] ((Keyed.find [] members).getD .null) members) = some inner := by
      rw [Keyed.find_insert_of_ne named]
      exact here
    exact (atPointer_member there rest).trans inside

/-- Creating the member without a name once more changes nothing. -/
theorem AlmostTarget.nameless (again : json.touched [[]] = .ok after) :
    target.touched [[]] = .ok after := by
  rcases almost with rfl | created
  · exact again
  · obtain ⟨members, rfl, rfl⟩ := touched_nameless created
    obtain ⟨_, ⟨⟩, rfl⟩ := touched_nameless again
    rw [created, Keyed.find_insert_self, Option.getD_some, Keyed.insert_insert]

end Nameless

section Walk

variable {env : Env} {source target json after : Json} {item : DiffItem} {items : List DiffItem}

/-- The schema that is looked up for the root has nodes to load. It is the table of the top-level
nodes, so that one of them is named `properties` or `patternProperties`. -/
def RootLoads (env : Env) : Prop :=
  ∃ jschema, env.GetJsonSchemaByXPath XPath.ROOT_TOKEN = .ok jschema ∧
    (subnodeLoader env jschema).isSome

/-- An operation that writes a member of the top of the document. -/
def WritesTop (item : DiffItem) : Prop := item.isRemove = false ∧ (XPath.parse item.path).length = 1

instance (item : DiffItem) : Decidable (WritesTop item) := inferInstanceAs (Decidable (_ ∧ _))

/-- One of the operations makes the routine create the member without a name. -/
def AddsNameless (env : Env) (items : List DiffItem) : Prop :=
  RootLoads env ∧ ∃ item ∈ items, WritesTop item

/-- A document is the requested one, or this one with a null member without a name, which it has
exactly where the operations add it. -/
def Requested (env : Env) (items : List DiffItem) (target json : Json) : Prop :=
  (¬ AddsNameless env items → json = target) ∧
    (AddsNameless env items → ∃ members, target = .object members ∧
      json = .object (Keyed.insert [] .null members))

theorem find_slash_eq_none (plain : target.HasPlainNames) (almost : AlmostTarget target json)
    (text : Str) : json.find ('/' :: text) = none := by
  have absent : ∀ members, MembersHavePlainNames members →
      Keyed.find ('/' :: text) members = none := by
    intro members plain
    refine Option.eq_none_iff_forall_ne_some.mpr fun value here => ?_
    exact (plainNames_of_mem plain _ (Keyed.mem_of_find here)).1.1.2 List.mem_cons_self
  rcases almost with rfl | created
  · cases json with
    | object members => exact absent members plain
    | null | bool | number | string | array => rfl
  · obtain ⟨members, rfl, rfl⟩ := touched_nameless created
    have named : '/' :: text ≠ [] := List.cons_ne_nil _ _
    exact (Keyed.find_insert_of_ne named _ _).trans (absent members plain)

/-- Looking up the value of a computed operation creates nothing. -/
theorem fillValue_computed (computed : Computed source target [] item)
    (plain : target.HasPlainNames) (almost : AlmostTarget target json) :
    fillValue item json = .ok json := by
  cases computed with
  | replaces | adds => rfl
  | @removes path last rest value parsed present =>
      have printed : ∃ text, Pointer.print (rest ++ [last]) = '/' :: text := by
        cases rest with
        | nil => exact ⟨_, rfl⟩
        | cons first others => exact ⟨_, rfl⟩
      obtain ⟨text, printed⟩ := printed
      refine except_bind_eq_ok.mpr ⟨_, parsed, ?_⟩
      rw [List.nil_append, printed, find_slash_eq_none plain almost]
      rfl

theorem exists_atPointer_dropLast {value : Json} {tokens : List Str}
    (found : target.atPointer tokens = .ok value) :
    ∃ container, target.atPointer tokens.dropLast = .ok container := by
  cases tokens using List.reverseRecOn with
  | nil => exact ⟨value, found⟩
  | append_singleton before token =>
      rw [atPointer_append] at found
      obtain ⟨container, here, _⟩ := except_bind_eq_ok.mp found
      rw [List.dropLast_concat]
      exact ⟨container, here⟩

theorem exists_atPointer_prefix {value : Json} {above tokens : List Str} (upper : above <+: tokens)
    (found : target.atPointer tokens = .ok value) :
    ∃ container, target.atPointer above = .ok container := by
  obtain ⟨below, rfl⟩ := upper
  rw [atPointer_append] at found
  obtain ⟨container, here, _⟩ := except_bind_eq_ok.mp found
  exact ⟨container, here⟩

/-- A computed operation that writes does so under plain names, at a place that is in the second
document. -/
theorem computed_writes (computed : Computed source target [] item)
    (plain : target.HasPlainNames) (writes : item.isRemove = false) :
    ∃ tokens container, Pointer.parse item.path = .ok tokens ∧
      (∀ token ∈ tokens, IsPlainName token) ∧
      target.atPointer tokens.dropLast = .ok container := by
  cases computed with
  | removes => cases writes
  | @replaces path rest value parsed there =>
      obtain ⟨container, above⟩ := exists_atPointer_dropLast there
      exact ⟨rest, container, parsed, isPlainName_of_atPointer plain there, above⟩
  | @adds path last rest value container parsed there entry =>
      refine ⟨rest ++ [last], container, parsed, ?_, ?_⟩
      · rcases entry with ⟨rfl, _⟩ | found
        · refine List.forall_mem_append.mpr ⟨isPlainName_of_atPointer plain there,
            List.forall_mem_singleton.mpr ⟨⟨?_, ?_⟩, ?_⟩⟩ <;> decide
        · exact isPlainName_of_atPointer plain found
      · rw [List.dropLast_concat]
        exact there

/-- Loading the nodes of a computed operation leaves the document as it is, or creates the member
without a name. -/
theorem loadItem_computed {before loaded : Node} (computed : Computed source target [] item)
    (plain : target.HasPlainNames) (sorted : target.Sorted) (almost : AlmostTarget target json)
    (writes : item.isRemove = false) (done : loadItem env item json before = .ok after loaded) :
    (RootLoads env ∧ WritesTop item → json.touched [[]] = .ok after) ∧
      (¬ (RootLoads env ∧ WritesTop item) → after = json) := by
  obtain ⟨tokens, container, parsed, names, there⟩ := computed_writes computed plain writes
  have upper := parse_of_pointer parsed names
  obtain ⟨container, there⟩ := exists_atPointer_prefix upper there
  have namesAbove : ∀ token ∈ (XPath.parse item.path).dropLast, IsPlainName token :=
    fun token member => names token (List.mem_of_mem_dropLast (upper.subset member))
  unfold loadItem WritesTop at *
  generalize XPath.parse item.path = tokens at *
  dsimp only at done
  split at done
  · cases done
  next nonempty =>
  have top : tokens.length = 1 ↔ tokens.dropLast = [] := by
    rw [← List.length_eq_zero_iff, List.length_dropLast]
    have := List.length_pos_iff.mpr nonempty
    omega
  obtain ⟨jschema, middle, attempted, located⟩ := bind_eq_ok.mp done
  have schema := (attempt_eq_ok.mp attempted).1
  rw [get_bind] at located
  split at located
  · cases located
  cases selected : XPath.select middle (XPath.mergeTokens tokens.dropLast) with
  | none =>
      simp only [selected] at located
      cases located
  | some root_node =>
      simp only [selected] at located
      cases loader : subnodeLoader env jschema with
      | none =>
          simp only [loader] at located
          cases located
          refine ⟨fun ⟨⟨root, rootSchema, loads⟩, _, single⟩ => ?_, fun _ => rfl⟩
          rw [top.mp single] at schema
          cases schema.symm.trans rootSchema
          rw [loader] at loads
          cases loads
      | some load =>
          simp only [loader] at located
          obtain ⟨pointer, _, attempted, located⟩ := bind_eq_ok.mp located
          have pointed := (attempt_eq_ok.mp attempted).1
          rw [parse_mergeTokens namesAbove] at pointed
          obtain ⟨created, _, attempted, located⟩ := bind_eq_ok.mp located
          have touches := (attempt_eq_ok.mp attempted).1
          obtain ⟨jnode, _, _, located⟩ := bind_eq_ok.mp located
          obtain ⟨_, _, _, finished⟩ := bind_eq_ok.mp located
          cases finished
          cases pointed
          by_cases single : tokens.dropLast = []
          · rw [if_pos single] at touches
            refine ⟨fun _ => touches, fun other => absurd ⟨⟨jschema, ?_, ?_⟩, writes, top.mpr single⟩
              other⟩
            · rw [single] at schema
              exact schema
            · rw [loader]
              rfl
          · rw [if_neg single] at touches
            have present := almost.atPointer namesAbove single there
            have stays := (touched_of_atPointer (almost.inOrder sorted) present).1
            refine ⟨fun ⟨_, _, isTop⟩ => absurd (top.mp isTop) single, fun _ => ?_⟩
            exact Except.ok.inj (touches.symm.trans stays)

/-- Loading the nodes of a computed difference leaves the requested document, with a member without
a name where one of the operations writes a member of the top. -/
theorem loadAdded_computed {before loaded : Node} (plain : target.HasPlainNames)
    (sorted : target.Sorted) (computed : ∀ item ∈ items, Computed source target [] item)
    (almost : AlmostTarget target json)
    (done : loadAdded env items json before = .ok after loaded) :
    (AddsNameless env items → target.touched [[]] = .ok after) ∧
      (¬ AddsNameless env items → after = json) := by
  unfold AddsNameless
  induction items generalizing json before with
  | nil =>
      cases done
      refine ⟨?_, fun _ => rfl⟩
      rintro ⟨_, _, impossible, _⟩
      exact absurd impossible List.not_mem_nil
  | cons item rest ih =>
      obtain ⟨here, later⟩ := List.forall_mem_cons.mp computed
      rw [loadAdded] at done
      obtain ⟨filled, middle, attempted, done⟩ := bind_eq_ok.mp done
      have filled_eq := (attempt_eq_ok.mp attempted).1
      rw [fillValue_computed here plain almost] at filled_eq
      cases filled_eq
      split at done
      · next removes =>
          obtain ⟨created, stays⟩ := ih later almost done
          have notTop : ¬ WritesTop item := fun top => by
            rw [top.1] at removes
            cases removes
          simp only [List.exists_mem_cons_iff, notTop, false_or]
          exact ⟨created, stays⟩
      · next writes =>
          obtain ⟨next, _, loadedItem, loadedRest⟩ := bind_eq_ok.mp done
          obtain ⟨first, same⟩ := loadItem_computed here plain sorted almost
            (eq_false_of_ne_true writes) loadedItem
          by_cases top : RootLoads env ∧ WritesTop item
          · have creates := almost.nameless (first top)
            obtain ⟨created, stays⟩ := ih later (.inr creates) loadedRest
            refine ⟨fun _ => ?_, fun other => ?_⟩
            · by_cases more : RootLoads env ∧ ∃ item ∈ rest, WritesTop item
              · exact created more
              · rw [stays more]
                exact creates
            · exact absurd ⟨top.1, item, List.mem_cons_self, top.2⟩ other
          · have unchanged := same top
            subst unchanged
            obtain ⟨created, stays⟩ := ih later almost loadedRest
            have equivalent : (RootLoads env ∧ ∃ other ∈ item :: rest, WritesTop other) ↔
                RootLoads env ∧ ∃ other ∈ rest, WritesTop other := by
              rw [List.exists_mem_cons_iff]
              exact and_congr_right fun loads => or_iff_right fun here => top ⟨loads, here⟩
            rw [equivalent]
            exact ⟨created, stays⟩

end Walk

section Made

variable {env : Env} {patch target : Json} {before after : Manager}

/-- The scan for removed nodes creates nothing where the operations are computed. -/
theorem scanRemovals_computed {source : Json} {node_config : Node} {items : List DiffItem}
    {scan scanned : Scan} (computed : ∀ item ∈ items, Computed source target [] item)
    (plain : target.HasPlainNames) (starts : scan.jsonConfig = target)
    (done : scanRemovals node_config items scan = .ok scanned) : scanned.jsonConfig = target := by
  induction items generalizing scan with
  | nil =>
      cases done
      exact starts
  | cons item rest ih =>
      obtain ⟨here, later⟩ := List.forall_mem_cons.mp computed
      rw [scanRemovals, fillValue_computed here plain (.inl starts)] at done
      obtain ⟨_, ⟨⟩, done⟩ := except_bind_eq_ok.mp done
      split at done
      · exact ih later starts done
      split at done
      · cases done
      split at done
      · cases done
      · refine ih later ?_ done
        exact starts

/-- The routine begins with the patched document, and leaves it so but for the member without a
name. -/
theorem course_document {site : Site} {jconfig source : Json} {draft : Draft}
    (course : Course env site patch jconfig draft) (plain : target.HasPlainNames)
    (sorted : target.Sorted) (patched : jconfig.patch patch = .ok target)
    (computed : ∀ item ∈ course.items, Computed source target [] item) :
    (AddsNameless env course.items → target.touched [[]] = .ok course.json_config) ∧
      (¬ AddsNameless env course.items → course.json_config = target) := by
  obtain ⟨json, applied, planned⟩ := except_bind_eq_ok.mp course.begun.planned
  have json_eq : json = target := by
    obtain ⟨result, produced, validated⟩ := except_bind_eq_ok.mp applied
    cases patched.symm.trans produced
    obtain ⟨jschema, _, validated⟩ := except_bind_eq_ok.mp validated
    split at validated <;> cases validated
    rfl
  subst json_eq
  obtain ⟨items, read, planned⟩ := except_bind_eq_ok.mp planned
  cases course.begun.parsed.symm.trans read
  obtain ⟨scan, scanned, planned⟩ := except_bind_eq_ok.mp planned
  have unscanned := scanRemovals_computed computed plain rfl scanned
  have removal : course.removal.jsonConfig = json := by
    dsimp only at planned
    split at planned
    · obtain ⟨ordered, _, planned⟩ := except_bind_eq_ok.mp planned
      obtain ⟨_, _, finished⟩ := except_bind_eq_ok.mp planned
      rw [← Except.ok.inj finished]
      exact unscanned
    · cases planned
  obtain ⟨_, _, _, loaded⟩ := bind_eq_ok.mp course.prepared.edits
  rw [removal] at loaded
  exact loadAdded_computed plain sorted computed (.inl rfl) loaded

/-- A candidate that is made has the document the patch asks for. -/
theorem requested_of_made (inOrder : InOrder before) (counted : before.runningJson.Counted)
    (sent : patch.Sorted) (patched : before.runningJson.patch patch = .ok target)
    (plain : target.HasPlainNames)
    (made : Manager.makeCandidateConfig env patch before = .ok ⟨⟩ after) :
    ∃ items, patch.patchItems = .ok items ∧
      Requested env items target after.candidateJson := by
  obtain ⟨making, rfl⟩ := Manager.Making.make_eq_ok_iff.mp made
  have sorted : target.Sorted := inOrder.running.patched sent patched
  obtain ⟨_, patched', canonical⟩ := fValidatePatch_eq_ok_false.mp making.admitted.canonical
  cases patched.symm.trans patched'
  have read : patch.patchItems = .ok (diffItems before.runningJson target []) := by
    rw [canonical]
    exact patchItems_diff inOrder.running sorted counted
  have computed : ∀ item ∈ making.course.items, Computed before.runningJson target [] item := by
    rw [Except.ok.inj (making.course.begun.parsed.symm.trans read)]
    exact computed_diffItems _ _ inOrder.running sorted counted rfl
  obtain ⟨creates, same⟩ := course_document making.course plain sorted patched computed
  refine ⟨making.course.items, making.course.begun.parsed, same, fun top => ?_⟩
  obtain ⟨members, object, nameless⟩ := touched_nameless (creates top)
  have absent : Keyed.find [] members = none := by
    rw [object] at plain
    refine Option.eq_none_iff_forall_ne_some.mpr fun value here => ?_
    exact (plainNames_of_mem plain _ (Keyed.mem_of_find here)).1.1.1 rfl
  rw [absent] at nameless
  exact ⟨members, object, nameless⟩

/-- Wherever calls with documents in order have led to, a patch that is accepted is the computed
difference to a document in order, and where the names of that document are plain, the candidate
has it, but for a null member without a name where a member of the top is written. -/
theorem Manager.candidate_requested (reached : Manager.ReachedInOrder env before)
    (counted : before.runningJson.Counted) (sent : patch.Sorted)
    (made : Manager.makeCandidateConfig env patch before = .ok ⟨⟩ after) :
    ∃ target items, target.Sorted ∧ patch = before.runningJson.diff target ∧
      before.runningJson.patch patch = .ok target ∧ patch.patchItems = .ok items ∧
      (target.HasPlainNames → Requested env items target after.candidateJson) := by
  have inOrder := inOrder_of_reached reached
  obtain ⟨making, _⟩ := Manager.Making.make_eq_ok_iff.mp made
  obtain ⟨target, patched, canonical⟩ := fValidatePatch_eq_ok_false.mp making.admitted.canonical
  refine ⟨target, making.course.items, inOrder.running.patched sent patched, canonical, patched,
    making.course.begun.parsed, fun plain => ?_⟩
  obtain ⟨items, read, requested⟩ := requested_of_made inOrder counted sent patched plain made
  cases read.symm.trans making.course.begun.parsed
  exact requested

end Made

end FlexConfig

namespace FlexConfig.Sample

open Procedure

theorem twoLeavesConfig_plain : (twoLeavesConfig "new").HasPlainNames := by
  have a : IsPlainName "a".toList := by decide
  have b : IsPlainName "b".toList := by decide
  have c : IsPlainName "c".toList := by decide
  exact ⟨a, ⟨b, trivial, c, trivial, trivial⟩, trivial⟩

/-- A leaf is replaced, and the candidate has the document with the new value. -/
theorem candidate_requested_replaced :
    ∃ before ∈ Manager.reached twoLeaves (twoLeavesConfig "old") [], ∃ after,
      Manager.makeCandidateConfig twoLeaves (replaceB "new") before = .ok ⟨⟩ after ∧
        after.candidateJson = twoLeavesConfig "new" := by
  have runs : ∃ before ∈ Manager.reached twoLeaves (twoLeavesConfig "old") [],
      before.runningJson = twoLeavesConfig "old" ∧
        (returned (Manager.makeCandidateConfig twoLeaves (replaceB "new") before)).isSome := by
    decide +kernel
  obtain ⟨before, reaches, running, makes⟩ := runs
  obtain ⟨⟨_, after⟩, makes⟩ := Option.isSome_iff_exists.mp makes
  have made := mem_returned.mp makes
  have counted : before.runningJson.Counted := by
    rw [running]
    exact twoLeavesConfig_counted
  have reached : Manager.ReachedInOrder twoLeaves before :=
    reachedInOrder_of_reached twoLeavesConfig_sorted
      (fun _ impossible => absurd impossible List.not_mem_nil) reaches
  obtain ⟨target, items, _, _, patched, read, requested⟩ :=
    Manager.candidate_requested reached counted replaceB_sorted made
  have produces : (twoLeavesConfig "old").patch (replaceB "new") = .ok (twoLeavesConfig "new") := by
    decide +kernel
  rw [running, produces] at patched
  cases patched
  have operations : (replaceB "new").patchItems =
      .ok [⟨"replace".toList, "/a/b".toList, some (text "new"), none⟩] := by
    decide +kernel
  cases operations.symm.trans read
  have below : ¬ AddsNameless twoLeaves
      [⟨"replace".toList, "/a/b".toList, some (text "new"), none⟩] := by
    intro ⟨_, item, member, top⟩
    cases List.mem_singleton.mp member
    exact absurd top (by decide)
  exact ⟨before, reaches, after, made, (requested twoLeavesConfig_plain).1 below⟩

/-- Two leaves at the top, one of which is named as the table of a schema is. -/
def topProperties : Env :=
  deployment (container [("a", object [("type", text "string")]),
    ("properties", object [("type", text "string")])]) fun _ => true

example : ∃ last ∈ Manager.reached topProperties (object [("a", text "old")])
    [.makeCandidateConfig (.array [operation "replace" "/a" (some (text "new"))])],
    last.candidateJson = object [("", .null), ("a", text "new")] := by
  decide +kernel

end FlexConfig.Sample
