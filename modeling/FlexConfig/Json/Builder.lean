import FlexConfig.Json.Grammar
import FlexConfig.Json.Parser
import FlexConfig.Json.Pointer

/-! # Building values from JSON texts

The handler that builds a value puts what the parser reads into the innermost container that is
open. Of the members of an object that have one key the last is kept. A text is accepted exactly
where it is written by the rules for a document, and the value is what is kept of it.
-/

namespace FlexConfig

open Procedure

/-- A container that is being built. An object has the key its next value belongs to. -/
inductive Unfinished where
  | array (elements : List Json)
  | object (members : List (Str × Json)) (object_element : Option Str)

/-- `json_sax_dom_parser`: the value, and the containers that are open, innermost first. -/
structure DomParser where
  root : Json := .null
  ref_stack : List Unfinished := []

abbrev Building := EStateM Halt DomParser

namespace DomParser

/-- Where a value goes: to the innermost container, or it is the whole value. -/
def handle_value (v : Json) : Building PUnit := do
  let parser ← get
  match parser.ref_stack with
  | [] => set { parser with root := v }
  | .array elements :: outer =>
    set { parser with ref_stack := .array (elements ++ [v]) :: outer }
  | .object members (some name) :: outer =>
    set { parser with ref_stack := .object (Keyed.insert name v members) (some name) :: outer }
  | .object _ none :: _ => throw .crashed

def start (container : Unfinished) : Building PUnit :=
  modify fun parser => { parser with ref_stack := container :: parser.ref_stack }

/-- A null is added at a key that is new. -/
def key (val : Str) : Building PUnit := do
  let parser ← get
  match parser.ref_stack with
  | .object members _ :: outer =>
    let members := if (Keyed.find val members).isSome then members
      else Keyed.insert val .null members
    set { parser with ref_stack := .object members (some val) :: outer }
  | _ => throw .crashed

def end_object : Building PUnit := do
  let parser ← get
  match parser.ref_stack with
  | .object members _ :: outer => do
    set { parser with ref_stack := outer }
    handle_value (.object members)
  | _ => throw .crashed

def end_array : Building PUnit := do
  let parser ← get
  match parser.ref_stack with
  | .array elements :: outer => do
    set { parser with ref_stack := outer }
    handle_value (.array elements)
  | _ => throw .crashed

/-- What the builder does when the parser tells it what it reads. -/
def handle : SaxEvent → Building PUnit
  | .start_object => start (.object [] none)
  | .key val => key val
  | .end_object => end_object
  | .start_array => start (.array [])
  | .end_array => end_array
  | .value val => handle_value val

theorem key_eq {members : List (Str × Json)} {last : Option Str} {root : Json}
    {outer : List Unfinished} (name : Str) :
    key name ⟨root, .object members last :: outer⟩ =
      .ok ⟨⟩ ⟨root, .object (if (Keyed.find name members).isSome then members
        else Keyed.insert name .null members) (some name) :: outer⟩ := rfl

mutual

/-- The builder puts what is kept of a document in its place. -/
theorem run_document : ∀ (document : Json) (parser : DomParser),
    forEach handle document.events parser = handle_value document.collected parser
  | .object members, ⟨root, outer⟩ => by
      obtain ⟨last, ran⟩ := run_members root outer members [] none
      have started : handle .start_object ⟨root, outer⟩ =
        .ok ⟨⟩ ⟨root, .object [] none :: outer⟩ := rfl
      rw [Json.events, List.cons_append, forEach_cons_of_ok started, forEach_append_of_ok ran,
        forEach_singleton]
      rfl
  | .array elements, ⟨root, outer⟩ => by
      have ran := run_elements root outer elements []
      have started : handle .start_array ⟨root, outer⟩ = .ok ⟨⟩ ⟨root, .array [] :: outer⟩ := rfl
      rw [Json.events, List.cons_append, forEach_cons_of_ok started, forEach_append_of_ok ran,
        forEach_singleton]
      rfl
  | .null, parser | .bool _, parser | .number _, parser | .string _, parser =>
      congrFun (forEach_singleton _ _) _

theorem run_members (root : Json) (outer : List Unfinished) :
    ∀ (members : List (Str × Json)) (present : List (Str × Json)) (last : Option Str),
      ∃ key, forEach handle (Json.memberEvents members) ⟨root, .object present last :: outer⟩ =
        .ok ⟨⟩ ⟨root,
          .object (Keyed.insertAll (Json.collectedMembers members) present) key :: outer⟩
  | [], present, last => ⟨last, rfl⟩
  | (name, value) :: rest, present, last => by
      obtain ⟨key, ran⟩ := run_members root outer rest
        (Keyed.insert name value.collected present) (some name)
      refine ⟨key, ?_⟩
      have placed := run_document value ⟨root, .object (if (Keyed.find name present).isSome
        then present else Keyed.insert name .null present) (some name) :: outer⟩
      have same : Keyed.insert name value.collected (if (Keyed.find name present).isSome
          then present else Keyed.insert name .null present) =
            Keyed.insert name value.collected present := by
        split
        · rfl
        · exact Keyed.insert_insert _ _ _ _
      have stored : forEach handle value.events ⟨root, .object (if (Keyed.find name present).isSome
          then present else Keyed.insert name .null present) (some name) :: outer⟩ =
          .ok ⟨⟩ ⟨root, .object (Keyed.insert name value.collected present) (some name) :: outer⟩ := by
        rw [placed, ← same]
        rfl
      have named : handle (.key name) ⟨root, .object present last :: outer⟩ = _ := key_eq name
      rw [Json.memberEvents, List.cons_append, forEach_cons_of_ok named,
        forEach_append_of_ok stored]
      exact ran

theorem run_elements (root : Json) (outer : List Unfinished) :
    ∀ (elements present : List Json),
      forEach handle (Json.elementEvents elements) ⟨root, .array present :: outer⟩ =
        .ok ⟨⟩ ⟨root, .array (present ++ Json.collectedElements elements) :: outer⟩
  | [], present => by
      rw [Json.collectedElements, List.append_nil]
      rfl
  | element :: rest, present => by
      have stored : forEach handle element.events ⟨root, .array present :: outer⟩ =
        .ok ⟨⟩ ⟨root, .array (present ++ [element.collected]) :: outer⟩ := run_document element _
      rw [Json.elementEvents, forEach_append_of_ok stored, run_elements root outer rest,
        Json.collectedElements, List.append_assoc]
      rfl

end

end DomParser

section Text

variable {D : Type} (doubles : Doubles D)

/-- Whether a document was read and nothing is behind it. -/
def Reading.complete (reading : Reading D) : Bool :=
  match reading.rest with
  | some (.end_of_input :: _) => true
  | _ => false

/-- `parser::sax_parse`: what the handler is told of a text. -/
def sax_parse (text : Str) : Reading D := parseValue doubles [] (tokensOf doubles text)

/-- `json::parse` of a text: the value, or an exception. -/
def Json.parse (text : Str) : Attempt Json :=
  match forEach DomParser.handle (sax_parse doubles text).events {} with
  | .ok _ parser =>
    if (sax_parse doubles text).complete then .ok parser.root else .error .raised
  | .error reason _ => .error reason

/-- `json::parse` of a text with a callback. -/
def CallbackParser.parseText {σ : Type} (callback : ParserCallback σ) (text : Str) :
    Handling σ PUnit := do
  forEach (handle callback) (sax_parse doubles text).events
  if (sax_parse doubles text).complete then return ⟨⟩ else throw .raised

variable {doubles} {text : Str}

theorem scanTokens_last {fuel : Nat} {before behind : List (Token D)} {token : Token D}
    (last : token.isLast = true) (scanned : scanTokens doubles fuel text = before ++ token :: behind) :
    behind = [] := by
  induction fuel generalizing text before with
  | zero => cases before <;> cases scanned
  | succ fuel ih =>
      rw [scanTokens] at scanned
      cases before with
      | nil =>
          obtain ⟨same, rest⟩ := List.cons.inj scanned
          rw [same, last, if_pos rfl] at rest
          exact rest.symm
      | cons first others =>
          obtain ⟨_, rest⟩ := List.cons.inj scanned
          split at rest
          · cases others <;> cases rest
          · exact ih rest

/-- The handler is told of the document a text is written for. -/
theorem sax_parse_of_writes {document : BasicJson D} (writes : Writes doubles document text) :
    sax_parse doubles text = ⟨(document.value doubles).events, some [.end_of_input]⟩ :=
  parseValue_iff.mpr ⟨document, writes_iff.mp writes, rfl⟩

/-- A text was read to its end exactly where it is written by the rules for a document. -/
theorem complete_iff : (sax_parse doubles text).complete = true ↔
    ∃ document : BasicJson D, Writes doubles document text := by
  unfold Reading.complete
  constructor
  · intro complete
    split at complete
    · next behind reached =>
        have read : sax_parse doubles text = ⟨(sax_parse doubles text).events,
          some (.end_of_input :: behind)⟩ := congrArg (Reading.mk _) reached
        obtain ⟨document, written, _⟩ := parseValue_iff.mp read
        have last : behind = [] := scanTokens_last rfl written
        exact ⟨document, writes_iff.mpr (last ▸ written)⟩
    · cases complete
  · rintro ⟨document, written⟩
    rw [sax_parse_of_writes written]

/-- Whatever a text is, the handler is told the beginning of a document. -/
theorem exists_prefix (doubles : Doubles D) (text : Str) :
    ∃ document : Json, (sax_parse doubles text).events <+: document.events := by
  have begins : BeginsValue [] (sax_parse doubles text).events :=
    begins_of_parse [] (tokensOf doubles text)
  obtain ⟨document, _, closes, isPrefix⟩ := begins
  cases closes
  rw [List.append_nil] at isPrefix
  exact ⟨document, isPrefix⟩

theorem Json.parse_of_writes {document : BasicJson D} (writes : Writes doubles document text) :
    Json.parse doubles text = .ok (document.value doubles).collected := by
  unfold Json.parse
  rw [sax_parse_of_writes writes, DomParser.run_document]
  rfl

/-- A text that is no document raises, and no assertion fails before. -/
theorem Json.parse_of_not_writes (none : ∀ document : BasicJson D, ¬ Writes doubles document text) :
    Json.parse doubles text = .error .raised := by
  obtain ⟨document, isPrefix⟩ := exists_prefix doubles text
  have whole : forEach DomParser.handle document.events {} = .ok ⟨⟩ _ :=
    DomParser.run_document document {}
  obtain ⟨between, ran⟩ := forEach_of_isPrefix isPrefix whole
  unfold Json.parse
  rw [ran]
  refine if_neg fun complete => ?_
  obtain ⟨document, writes⟩ := complete_iff.mp complete
  exact none document writes

/-- Every text is parsed or raises: it is accepted exactly where it is written by the rules for a
document, and its value is what is kept of this document. -/
theorem Json.parse_exact (doubles : Doubles D) (text : Str) (result : Attempt Json) :
    Json.parse doubles text = result ↔
      (∃ document : BasicJson D, Writes doubles document text ∧
        result = .ok (document.value doubles).collected) ∨
      (∀ document : BasicJson D, ¬ Writes doubles document text) ∧ result = .error .raised := by
  constructor
  · rintro rfl
    by_cases written : ∃ document : BasicJson D, Writes doubles document text
    · obtain ⟨document, writes⟩ := written
      exact .inl ⟨document, writes, Json.parse_of_writes writes⟩
    · have none := not_exists.mp written
      exact .inr ⟨none, Json.parse_of_not_writes none⟩
  · rintro (⟨document, writes, rfl⟩ | ⟨none, rfl⟩)
    · exact Json.parse_of_writes writes
    · exact Json.parse_of_not_writes none

end Text

end FlexConfig
