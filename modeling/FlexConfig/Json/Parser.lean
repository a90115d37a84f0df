import FlexConfig.Json.Callback
import FlexConfig.Json.Document

/-! # Parsing JSON texts

The parser of the JSON library reads the tokens of a text with a stack of the containers that are
open, and tells a handler what it reads; the handler without a callback builds the value. A text
is accepted exactly where its tokens are those of a document, and the value is what is kept of
this document.
-/

namespace FlexConfig

open BasicJson

variable {D : Type}

/-- How far a text was read: what the handler was told, and the tokens behind the document where
its end was reached. -/
structure Reading (D : Type) where
  events : List SaxEvent
  rest : Option (List (Token D))

namespace Reading

/-- A syntax error. -/
def failed : Reading D := ⟨[], none⟩

/-- Tell the handler of something before what comes then. -/
def tell (event : SaxEvent) (reading : Reading D) : Reading D :=
  { reading with events := event :: reading.events }

def tellAll (events : List SaxEvent) (reading : Reading D) : Reading D :=
  { reading with events := events ++ reading.events }

@[simp] theorem tell_rest (event : SaxEvent) (reading : Reading D) :
    (reading.tell event).rest = reading.rest := rfl

@[simp] theorem tellAll_rest (events : List SaxEvent) (reading : Reading D) :
    (reading.tellAll events).rest = reading.rest := rfl

@[simp] theorem tellAll_nil (reading : Reading D) : reading.tellAll [] = reading := rfl

@[simp] theorem tellAll_cons (event : SaxEvent) (events : List SaxEvent) (reading : Reading D) :
    reading.tellAll (event :: events) = (reading.tellAll events).tell event := rfl

@[simp] theorem tellAll_append (first second : List SaxEvent) (reading : Reading D) :
    reading.tellAll (first ++ second) = (reading.tellAll second).tellAll first :=
  congrArg (Reading.mk · reading.rest) (List.append_assoc first second reading.events)

end Reading

section Parser

variable (doubles : Doubles D)

/-- The value of a token that is a whole value. A number that is not finite is none. -/
def Token.leaf : Token D → Option Json
  | .literal_true => some (.bool true)
  | .literal_false => some (.bool false)
  | .literal_null => some .null
  | .value_string value => some (.string value)
  | .value_unsigned value => some (.number value.toNat)
  | .value_integer value => some (.number value.toInt)
  | .value_float (some value) => some (.number (doubles.value value))
  | _ => none

mutual

/-- `parser::sax_parse_internal` before a value, in the containers that are open. -/
def parseValue (states : List Container) : List (Token D) → Reading D
  | .begin_object :: .end_object :: rest =>
    .tell .start_object (.tell .end_object (evaluate states rest))
  | .begin_object :: .value_string name :: .name_separator :: rest =>
    .tell .start_object (.tell (.key name) (parseValue (.object :: states) rest))
  | .begin_object :: .value_string name :: _ =>
    .tell .start_object (.tell (.key name) .failed)
  | .begin_object :: _ => .tell .start_object .failed
  | .begin_array :: .end_array :: rest =>
    .tell .start_array (.tell .end_array (evaluate states rest))
  | .begin_array :: rest => .tell .start_array (parseValue (.array :: states) rest)
  | token :: rest =>
    match token.leaf doubles with
    | some value => .tell (.value value) (evaluate states rest)
    | none => .failed
  | [] => .failed

/-- `parser::sax_parse_internal` behind a value. -/
def evaluate : List Container → List (Token D) → Reading D
  | [], rest => ⟨[], some rest⟩
  | .array :: states, .value_separator :: rest => parseValue (.array :: states) rest
  | .array :: states, .end_array :: rest => .tell .end_array (evaluate states rest)
  | .object :: states, .value_separator :: .value_string name :: .name_separator :: rest =>
    .tell (.key name) (parseValue (.object :: states) rest)
  | .object :: _, .value_separator :: .value_string name :: _ => .tell (.key name) .failed
  | .object :: states, .end_object :: rest => .tell .end_object (evaluate states rest)
  | _ :: _, _ => .failed

end

end Parser

variable {doubles : Doubles D}

section Complete

theorem parseValue_of_leaf {token : Token D} {val : Json} (reads : token.leaf doubles = some val)
    (states : List Container) (rest : List (Token D)) :
    parseValue doubles states (token :: rest) = (evaluate doubles states rest).tell (.value val) := by
  cases token with
  | begin_array | begin_object | end_array | end_object | name_separator | value_separator
  | parse_error | end_of_input => cases reads
  | literal_true | literal_false | literal_null | value_string | value_unsigned | value_integer =>
      rw [parseValue, reads] <;> nofun
  | value_float number =>
      rw [parseValue, reads] <;> nofun

theorem parseValue_array {tokens : List (Token D)} (inside : tokens.head? ≠ some .end_array)
    (states : List Container) :
    parseValue doubles states (.begin_array :: tokens) =
      (parseValue doubles (.array :: states) tokens).tell .start_array := by
  rw [parseValue]
  rintro rest rfl
  exact inside rfl

/-- No value begins with a bracket that closes an array. -/
theorem head_tokens (document : BasicJson D) (rest : List (Token D)) :
    (document.tokens ++ rest).head? ≠ some .end_array := by
  cases document with
  | boolean value => cases value <;> exact nofun
  | array elements => cases elements <;> exact nofun
  | object members => cases members <;> exact nofun
  | null | number_integer | number_unsigned | number_float | string => exact nofun

mutual

/-- The parser reads a document off its tokens. -/
theorem parseValue_tokens (states : List Container) (rest : List (Token D)) :
    ∀ document : BasicJson D,
      parseValue doubles states (document.tokens ++ rest) =
        (evaluate doubles states rest).tellAll (document.value doubles).events
  | .object [] | .array [] => rfl
  | .object ((name, element) :: later) => by
      have inner := parseValue_tokens (.object :: states)
        (laterMembers later ++ .end_object :: rest) element
      rw [evaluate_laterMembers states rest later] at inner
      rw [tokens, value, memberValues, Json.events, Json.memberEvents]
      simp only [List.cons_append, List.append_assoc, List.nil_append, parseValue, inner,
        Reading.tellAll_cons, Reading.tellAll_append]
  | .array (element :: later) => by
      have inner := parseValue_tokens (.array :: states)
        (laterElements later ++ .end_array :: rest) element
      rw [evaluate_laterElements states rest later] at inner
      rw [tokens, value, values, Json.events, Json.elementEvents]
      simp only [List.cons_append, List.append_assoc, List.nil_append]
      rw [parseValue_array (head_tokens element _), inner]
      simp only [Reading.tellAll_cons, Reading.tellAll_append]
  | .null | .boolean true | .boolean false | .number_integer _ | .number_unsigned _
  | .number_float _ | .string _ => parseValue_of_leaf rfl states rest

theorem evaluate_laterMembers (states : List Container) (rest : List (Token D)) :
    ∀ later : List (Str × BasicJson D),
      evaluate doubles (.object :: states) (laterMembers later ++ .end_object :: rest) =
        (evaluate doubles states rest).tellAll
          (Json.memberEvents (memberValues doubles later) ++ [.end_object])
  | [] => rfl
  | (name, element) :: later => by
      have inner := parseValue_tokens (.object :: states)
        (laterMembers later ++ .end_object :: rest) element
      rw [evaluate_laterMembers states rest later] at inner
      rw [laterMembers, memberValues, Json.memberEvents]
      simp only [List.cons_append, List.append_assoc, evaluate, inner,
        Reading.tellAll_cons, Reading.tellAll_append]

theorem evaluate_laterElements (states : List Container) (rest : List (Token D)) :
    ∀ later : List (BasicJson D),
      evaluate doubles (.array :: states) (laterElements later ++ .end_array :: rest) =
        (evaluate doubles states rest).tellAll
          (Json.elementEvents (values doubles later) ++ [.end_array])
  | [] => rfl
  | element :: later => by
      have inner := parseValue_tokens (.array :: states)
        (laterElements later ++ .end_array :: rest) element
      rw [evaluate_laterElements states rest later] at inner
      rw [laterElements, values, Json.elementEvents]
      simp only [List.cons_append, List.append_assoc, evaluate, inner, Reading.tellAll_append]

end

end Complete

section Sound

theorem leaf_document {token : Token D} {val : Json} (reads : token.leaf doubles = some val) :
    ∃ document : BasicJson D, document.tokens = [token] := by
  cases token with
  | begin_array | begin_object | end_array | end_object | name_separator | value_separator
  | parse_error | end_of_input => cases reads
  | literal_true => exact ⟨.boolean true, rfl⟩
  | literal_false => exact ⟨.boolean false, rfl⟩
  | literal_null => exact ⟨.null, rfl⟩
  | value_string value => exact ⟨.string value, rfl⟩
  | value_unsigned value => exact ⟨.number_unsigned value, rfl⟩
  | value_integer value => exact ⟨.number_integer value, rfl⟩
  | value_float number =>
      cases number with
      | none => cases reads
      | some value => exact ⟨.number_float value, rfl⟩

mutual

/-- Where the end of the text's document is reached, a value has been read, and what is behind it
leads to this end. -/
theorem document_of_parse {states : List Container} {tokens rest : List (Token D)}
    (accepted : (parseValue doubles states tokens).rest = some rest) :
    ∃ (document : BasicJson D) (behind : List (Token D)), tokens = document.tokens ++ behind ∧
      (evaluate doubles states behind).rest = some rest := by
  rw [parseValue.eq_def] at accepted
  split at accepted
  · next behind => exact ⟨.object [], behind, rfl, accepted⟩
  · next name others =>
      obtain ⟨element, between, first, more⟩ := document_of_parse accepted
      have shorter : between.length ≤ others.length := by
        rw [first, List.length_append]
        exact Nat.le_add_left _ _
      obtain ⟨later, behind, second, closed⟩ := members_of_evaluate more
      refine ⟨.object ((name, element) :: later), behind, ?_, closed⟩
      rw [first, second, BasicJson.tokens]
      simp only [List.cons_append, List.append_assoc, List.nil_append]
  · cases accepted
  · cases accepted
  · next behind => exact ⟨.array [], behind, rfl, accepted⟩
  · next others _ =>
      obtain ⟨element, between, first, more⟩ := document_of_parse accepted
      have shorter : between.length ≤ others.length := by
        rw [first, List.length_append]
        exact Nat.le_add_left _ _
      obtain ⟨later, behind, second, closed⟩ := elements_of_evaluate more
      refine ⟨.array (element :: later), behind, ?_, closed⟩
      rw [first, second, BasicJson.tokens]
      simp only [List.cons_append, List.append_assoc, List.nil_append]
  · next token behind _ _ _ _ _ _ =>
      split at accepted
      · next reads =>
          obtain ⟨document, written⟩ := leaf_document reads
          exact ⟨document, behind, by rw [written]; rfl, accepted⟩
      · cases accepted
  · cases accepted
termination_by tokens.length

theorem members_of_evaluate {states : List Container} {tokens rest : List (Token D)}
    (accepted : (evaluate doubles (.object :: states) tokens).rest = some rest) :
    ∃ (later : List (Str × BasicJson D)) (behind : List (Token D)),
      tokens = laterMembers later ++ .end_object :: behind ∧
        (evaluate doubles states behind).rest = some rest := by
  rw [evaluate.eq_def] at accepted
  split at accepted
  · next impossible => cases impossible
  · next impossible => cases impossible
  · next impossible => cases impossible
  · next outer name others same =>
      cases same
      obtain ⟨element, between, first, more⟩ := document_of_parse accepted
      have shorter : between.length ≤ others.length := by
        rw [first, List.length_append]
        exact Nat.le_add_left _ _
      obtain ⟨later, behind, second, closed⟩ := members_of_evaluate more
      refine ⟨(name, element) :: later, behind, ?_, closed⟩
      rw [first, second, laterMembers]
      simp only [List.cons_append, List.append_assoc]
  · cases accepted
  · next behind same =>
      cases same
      exact ⟨[], behind, rfl, accepted⟩
  · cases accepted
termination_by tokens.length

theorem elements_of_evaluate {states : List Container} {tokens rest : List (Token D)}
    (accepted : (evaluate doubles (.array :: states) tokens).rest = some rest) :
    ∃ (later : List (BasicJson D)) (behind : List (Token D)),
      tokens = laterElements later ++ .end_array :: behind ∧
        (evaluate doubles states behind).rest = some rest := by
  rw [evaluate.eq_def] at accepted
  split at accepted
  · next impossible => cases impossible
  · next others same =>
      cases same
      obtain ⟨element, between, first, more⟩ := document_of_parse accepted
      have shorter : between.length ≤ others.length := by
        rw [first, List.length_append]
        exact Nat.le_add_left _ _
      obtain ⟨later, behind, second, closed⟩ := elements_of_evaluate more
      refine ⟨element :: later, behind, ?_, closed⟩
      rw [first, second, laterElements]
      simp only [List.cons_append, List.append_assoc]
  · next behind same =>
      cases same
      exact ⟨[], behind, rfl, accepted⟩
  · next impossible => cases impossible
  · next impossible => cases impossible
  · next impossible => cases impossible
  · cases accepted
termination_by tokens.length

end

/-- The parser comes to the end of a document exactly where the tokens are those of a document
and what is behind it. -/
theorem parseValue_iff {tokens rest : List (Token D)} {events : List SaxEvent} :
    parseValue doubles [] tokens = ⟨events, some rest⟩ ↔
      ∃ document : BasicJson D, tokens = document.tokens ++ rest ∧
        events = (document.value doubles).events := by
  constructor
  · intro read
    have accepted : (parseValue doubles [] tokens).rest = some rest := by rw [read]
    obtain ⟨document, behind, written, closed⟩ := document_of_parse accepted
    rw [evaluate] at closed
    cases closed
    refine ⟨document, written, ?_⟩
    have again : parseValue doubles [] (document.tokens ++ rest) = _ :=
      parseValue_tokens [] rest document
    rw [← written, read, evaluate] at again
    have events := congrArg Reading.events again
    exact events.trans (List.append_nil _)
  · rintro ⟨document, rfl, rfl⟩
    rw [parseValue_tokens, evaluate]
    exact congrArg (Reading.mk · _) (List.append_nil _)

end Sound

section Prefix

theorem Token.events_leaf {token : Token D} {val : Json} (reads : token.leaf doubles = some val) :
    val.events = [.value val] := by
  unfold Token.leaf at reads
  split at reads <;> cases reads <;> rfl

/-- What the parser may tell from inside containers until all of them are closed. -/
inductive Closes : List Container → List SaxEvent → Prop
  | done : Closes [] []
  | array {states : List Container} {after : List SaxEvent} (elements : List Json)
      (outer : Closes states after) :
      Closes (.array :: states) (Json.elementEvents elements ++ .end_array :: after)
  | object {states : List Container} {after : List SaxEvent} (members : List (Str × Json))
      (outer : Closes states after) :
      Closes (.object :: states) (Json.memberEvents members ++ .end_object :: after)

theorem exists_closes (states : List Container) : ∃ events, Closes states events := by
  induction states with
  | nil => exact ⟨_, .done⟩
  | cons container outer ih =>
      obtain ⟨events, closes⟩ := ih
      cases container with
      | array => exact ⟨_, .array [] closes⟩
      | object => exact ⟨_, .object [] closes⟩

/-- Before a value, what is told is the beginning of a value and of what closes the containers. -/
def BeginsValue (states : List Container) (events : List SaxEvent) : Prop :=
  ∃ (document : Json) (after : List SaxEvent), Closes states after ∧
    events <+: document.events ++ after

def BeginsClosing (states : List Container) (events : List SaxEvent) : Prop :=
  ∃ after, Closes states after ∧ events <+: after

variable {states : List Container} {events : List SaxEvent}

theorem BeginsClosing.nil (states : List Container) : BeginsClosing states [] := by
  obtain ⟨after, closes⟩ := exists_closes states
  exact ⟨after, closes, List.nil_prefix⟩

theorem BeginsClosing.value (begins : BeginsClosing states events) (document : Json) :
    BeginsValue states (document.events ++ events) := by
  obtain ⟨after, closes, isPrefix⟩ := begins
  exact ⟨document, after, closes, (List.prefix_append_right_inj _).mpr isPrefix⟩

theorem BeginsValue.nil (states : List Container) : BeginsValue states [] := by
  obtain ⟨after, closes⟩ := exists_closes states
  exact ⟨.null, after, closes, List.nil_prefix⟩

theorem BeginsValue.element (begins : BeginsValue (.array :: states) events) :
    BeginsClosing (.array :: states) events := by
  obtain ⟨document, _, closes, isPrefix⟩ := begins
  cases closes with
  | array elements outer =>
      refine ⟨_, .array (document :: elements) outer, ?_⟩
      rw [Json.elementEvents, List.append_assoc]
      exact isPrefix

theorem BeginsValue.member (begins : BeginsValue (.object :: states) events) (name : Str) :
    BeginsClosing (.object :: states) (.key name :: events) := by
  obtain ⟨document, _, closes, isPrefix⟩ := begins
  cases closes with
  | object members outer =>
      refine ⟨_, .object ((name, document) :: members) outer, ?_⟩
      rw [Json.memberEvents, List.cons_append, List.cons_append, List.append_assoc]
      exact List.prefix_cons_inj _ |>.mpr isPrefix

theorem BeginsClosing.ends_array (begins : BeginsClosing states events) :
    BeginsClosing (.array :: states) (.end_array :: events) := by
  obtain ⟨after, closes, isPrefix⟩ := begins
  exact ⟨_, .array [] closes, List.prefix_cons_inj _ |>.mpr isPrefix⟩

theorem BeginsClosing.ends_object (begins : BeginsClosing states events) :
    BeginsClosing (.object :: states) (.end_object :: events) := by
  obtain ⟨after, closes, isPrefix⟩ := begins
  exact ⟨_, .object [] closes, List.prefix_cons_inj _ |>.mpr isPrefix⟩

theorem BeginsClosing.starts_array (begins : BeginsClosing (.array :: states) events) :
    BeginsValue states (.start_array :: events) := by
  obtain ⟨_, closes, isPrefix⟩ := begins
  cases closes with
  | array elements outer =>
      refine ⟨.array elements, _, outer, ?_⟩
      rw [Json.events, List.cons_append, List.cons_append, List.append_assoc]
      exact List.prefix_cons_inj _ |>.mpr isPrefix

theorem BeginsClosing.starts_object (begins : BeginsClosing (.object :: states) events) :
    BeginsValue states (.start_object :: events) := by
  obtain ⟨_, closes, isPrefix⟩ := begins
  cases closes with
  | object members outer =>
      refine ⟨.object members, _, outer, ?_⟩
      rw [Json.events, List.cons_append, List.cons_append, List.append_assoc]
      exact List.prefix_cons_inj _ |>.mpr isPrefix

/-- A key may be told before a syntax error. -/
theorem BeginsClosing.key (states : List Container) (name : Str) :
    BeginsClosing (.object :: states) [.key name] :=
  (BeginsValue.nil (.object :: states)).member name

mutual

/-- Whatever the tokens are, the handler is told the beginning of a document. -/
theorem begins_of_parse (states : List Container) (tokens : List (Token D)) :
    BeginsValue states (parseValue doubles states tokens).events := by
  rw [parseValue.eq_def]
  split
  · next rest => exact (begins_of_evaluate states rest).ends_object.starts_object
  · next name rest => exact ((begins_of_parse (.object :: states) rest).member name).starts_object
  · next name _ _ => exact (BeginsClosing.key states name).starts_object
  · exact (BeginsClosing.nil (.object :: states)).starts_object
  · next rest => exact (begins_of_evaluate states rest).ends_array.starts_array
  · next rest _ => exact (begins_of_parse (.array :: states) rest).element.starts_array
  · next token rest _ _ _ _ _ _ =>
      split
      · next val reads =>
          have told := (begins_of_evaluate states rest).value val
          rw [Token.events_leaf reads] at told
          exact told
      · exact .nil states
  · exact .nil states
termination_by tokens.length

theorem begins_of_evaluate (states : List Container) (tokens : List (Token D)) :
    BeginsClosing states (evaluate doubles states tokens).events := by
  rw [evaluate.eq_def]
  split
  · exact .nil []
  · next rest => exact (begins_of_parse (.array :: _) rest).element
  · next states rest => exact (begins_of_evaluate states rest).ends_array
  · next name rest => exact (begins_of_parse (.object :: _) rest).member name
  · next name _ _ => exact .key _ name
  · next states rest => exact (begins_of_evaluate states rest).ends_object
  · exact .nil _
termination_by tokens.length

end

end Prefix

end FlexConfig
