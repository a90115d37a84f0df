import FlexConfig.Json.Value

/-! # Parsing with a callback

The parser of the JSON library goes through a document and tells a handler what it reads.
The handler that builds a value under a callback asks the callback about every key, value and
container. What the callback refuses is left out, and so is what is inside: the handler keeps
stacks of what it keeps, and asks about a container at its end only where it kept it.
-/

namespace FlexConfig

open Procedure

/-- What the parser tells its handler. -/
inductive SaxEvent where
  | start_object
  | key (val : Str)
  | end_object
  | start_array
  | end_array
  | value (val : Json)

namespace Json

mutual

/-- What the parser tells of a document. The members of an object are those of the text, in its
order, and a key may come more than once. -/
def events : Json → List SaxEvent
  | .object members => .start_object :: memberEvents members ++ [.end_object]
  | .array elements => .start_array :: elementEvents elements ++ [.end_array]
  | .null => [.value .null]
  | .bool val => [.value (.bool val)]
  | .number val => [.value (.number val)]
  | .string val => [.value (.string val)]

def memberEvents : List (Str × Json) → List SaxEvent
  | [] => []
  | (key, value) :: rest => .key key :: value.events ++ memberEvents rest

def elementEvents : List Json → List SaxEvent
  | [] => []
  | element :: rest => element.events ++ elementEvents rest

end

end Json

/-- `parse_event_t`, with the key or the value that was parsed. -/
inductive ParseEvent where
  | object_start
  | object_end
  | array_start
  | array_end
  | key (parsed : Json)
  | value (parsed : Json)

/-- `parser_callback_t`: whether to keep what the parser has read at a depth. -/
abbrev ParserCallback (σ : Type) := (depth : Nat) → ParseEvent → EStateM Halt σ Bool

/-- The kind of a container that is being built. -/
inductive Container where
  | array
  | object
  deriving DecidableEq

/-- `json_sax_dom_callback_parser`, without the values it builds: of the containers that are
open, innermost first, it is known which are built and of what kind. -/
structure CallbackParser where
  ref_stack : List (Option Container) := []
  keep_stack : List Bool := [true]
  key_keep_stack : List Bool := []

/-- The handler while it works for a callback. -/
abbrev Handling (σ : Type) := EStateM Halt (CallbackParser × σ)

namespace CallbackParser

variable {σ : Type}

section Handler

variable (callback : ParserCallback σ)

/-- Ask the callback. -/
def call (depth : Nat) (event : ParseEvent) : Handling σ Bool :=
  focus Prod.snd (fun part state => (state.1, part)) (callback depth event)

/-- Where a value goes that is kept, and whether it is built there: to the container around it,
unless this is not built or the key before the value was refused. -/
def store_value : Handling σ Bool := do
  let parser := (← get).1
  match parser.ref_stack with
  | [] => return true
  | none :: _ => return false
  | some .array :: _ => return true
  | some .object :: _ =>
    match parser.key_keep_stack with
    | [] => throw .crashed
    | store_element :: rest => do
      modify fun state => ({ state.1 with key_keep_stack := rest }, state.2)
      return store_element

/-- Whether a value is built. The callback is not asked about a container here: that was done at
its start. -/
def handle_value (v : Json) (skip_callback : Bool) : Handling σ Bool := do
  let parser := (← get).1
  match parser.keep_stack with
  | [] => throw .crashed
  | false :: _ => return false
  | true :: _ => do
    let keep ← (if skip_callback then pure true
      else call callback parser.ref_stack.length (.value v) : Handling σ Bool)
    if keep then store_value else return false

/-- Begin a container. -/
def start (event : ParseEvent) (kind : Container) (v : Json) : Handling σ PUnit := do
  let keep ← call callback (← get).1.ref_stack.length event
  modify fun state => ({ state.1 with keep_stack := keep :: state.1.keep_stack }, state.2)
  let val ← handle_value callback v true
  modify fun state =>
    ({ state.1 with ref_stack := (if val then some kind else none) :: state.1.ref_stack }, state.2)

def start_object : Handling σ PUnit := start callback .object_start .object (.object [])

def start_array : Handling σ PUnit := start callback .array_start .array (.array [])

def key (val : Str) : Handling σ PUnit := do
  let parser := (← get).1
  let keep ← call callback parser.ref_stack.length (.key (.string val))
  modify fun state => ({ state.1 with key_keep_stack := keep :: state.1.key_keep_stack }, state.2)
  if keep && parser.ref_stack.isEmpty then throw .crashed else return ⟨⟩

/-- Ask about a container at its end, and whether to keep it. -/
def ask_end (event : ParseEvent) : Handling σ Bool := do
  let parser := (← get).1
  match parser.ref_stack with
  | [] => throw .crashed
  | none :: _ => return true
  | some _ :: rest => call callback rest.length event

/-- Leave a container. -/
def pop : Handling σ PUnit := do
  let parser := (← get).1
  match parser.ref_stack, parser.keep_stack with
  | _ :: refs, _ :: keeps =>
    modify fun state => ({ state.1 with ref_stack := refs, keep_stack := keeps }, state.2)
  | _, _ => throw .crashed

def end_object : Handling σ PUnit := do
  let _ ← ask_end callback .object_end
  pop

/-- An array that is not kept is taken from the container around it, which is asked for its kind
without a look whether it is built. -/
def end_array : Handling σ PUnit := do
  let keep ← ask_end callback .array_end
  pop
  match keep, (← get).1.ref_stack with
  | false, none :: _ => throw .crashed
  | _, _ => return ⟨⟩

/-- What the handler does when the parser tells it what it reads. -/
def handle : SaxEvent → Handling σ PUnit
  | .start_object => start_object callback
  | .key val => key callback val
  | .end_object => end_object callback
  | .start_array => start_array callback
  | .end_array => end_array callback
  | .value val => do
    let _ ← handle_value callback val false

/-- `json::parse` of a document, with a callback. -/
def parse (document : Json) : Handling σ PUnit := forEach (handle callback) document.events

end Handler

variable {callback : ParserCallback σ} {parser : CallbackParser} {state next : σ}

theorem call_of_answer {depth : Nat} {event : ParseEvent} {answer : Bool}
    (answers : callback depth event state = .ok answer next) :
    call callback depth event (parser, state) = .ok answer (parser, next) :=
  focus_eq_ok.mpr ⟨next, answers, rfl⟩

section Refused

/-- Nothing is kept of a value that is refused or is inside a container that is. -/
theorem handle_value_refused {v : Json} (opened : parser.keep_stack ≠ [])
    (refuses : callback parser.ref_stack.length (.value v) state = .ok false state) :
    handle_value callback v false (parser, state) = .ok false (parser, state) := by
  unfold handle_value
  rw [get_bind]
  cases keeps : parser.keep_stack with
  | nil => exact absurd keeps opened
  | cons keep outer =>
      cases keep with
      | false => rfl
      | true => exact bind_of_ok (call_of_answer refuses)

theorem start_refused {event : ParseEvent} {kind : Container} {v : Json}
    (refuses : callback parser.ref_stack.length event state = .ok false state) :
    start callback event kind v (parser, state) =
      .ok ⟨⟩ ({ parser with
        keep_stack := false :: parser.keep_stack
        ref_stack := none :: parser.ref_stack }, state) := by
  unfold start
  rw [get_bind, bind_of_ok (call_of_answer refuses)]
  rfl

theorem key_refused {val : Str}
    (refuses : callback parser.ref_stack.length (.key (.string val)) state = .ok false next) :
    key callback val (parser, state) =
      .ok ⟨⟩ ({ parser with key_keep_stack := false :: parser.key_keep_stack }, next) := by
  unfold key
  rw [get_bind, bind_of_ok (call_of_answer refuses)]
  rfl

/-- Whatever it is asked about, the callback refuses it. -/
def RefusesAll (callback : ParserCallback σ) (state : σ) : Prop :=
  ∀ depth event, callback depth event state = .ok false state

mutual

/-- A document of which nothing is kept leaves the containers as they are. -/
theorem run_refused (refuses : RefusesAll callback state) : ∀ (document : Json)
    (parser : CallbackParser), parser.keep_stack ≠ [] →
    ∃ keys, forEach (handle callback) document.events (parser, state) =
      .ok ⟨⟩ ({ parser with key_keep_stack := keys }, state)
  | .object members, parser, opened => by
      obtain ⟨keys, ran⟩ := run_refused_members refuses members
        { parser with
          keep_stack := false :: parser.keep_stack
          ref_stack := none :: parser.ref_stack } (List.cons_ne_nil _ _)
      refine ⟨keys, ?_⟩
      have started : handle callback .start_object (parser, state) = _ := start_refused (refuses _ _)
      rw [Json.events, List.cons_append, forEach_cons_of_ok started, forEach_append_of_ok ran]
      rfl
  | .array elements, parser, opened => by
      obtain ⟨keys, ran⟩ := run_refused_elements refuses elements
        { parser with
          keep_stack := false :: parser.keep_stack
          ref_stack := none :: parser.ref_stack } (List.cons_ne_nil _ _)
      refine ⟨keys, ?_⟩
      have started : handle callback .start_array (parser, state) = _ := start_refused (refuses _ _)
      rw [Json.events, List.cons_append, forEach_cons_of_ok started, forEach_append_of_ok ran]
      rfl
  | .null, parser, opened | .bool _, parser, opened | .number _, parser, opened
  | .string _, parser, opened => by
      refine ⟨parser.key_keep_stack, ?_⟩
      exact forEach_cons_of_ok (bind_of_ok (handle_value_refused opened (refuses _ _)))

theorem run_refused_members (refuses : RefusesAll callback state) :
    ∀ (members : List (Str × Json)) (parser : CallbackParser), parser.keep_stack ≠ [] →
      ∃ keys, forEach (handle callback) (Json.memberEvents members) (parser, state) =
        .ok ⟨⟩ ({ parser with key_keep_stack := keys }, state)
  | [], parser, _ => ⟨parser.key_keep_stack, rfl⟩
  | (name, value) :: rest, parser, opened => by
      obtain ⟨between, ranValue⟩ := run_refused refuses value
        { parser with key_keep_stack := false :: parser.key_keep_stack } opened
      obtain ⟨keys, ranRest⟩ := run_refused_members refuses rest
        { parser with key_keep_stack := between } opened
      refine ⟨keys, ?_⟩
      have named : handle callback (.key name) (parser, state) = _ := key_refused (refuses _ _)
      rw [Json.memberEvents, List.cons_append, forEach_cons_of_ok named,
        forEach_append_of_ok ranValue]
      exact ranRest

theorem run_refused_elements (refuses : RefusesAll callback state) :
    ∀ (elements : List Json) (parser : CallbackParser), parser.keep_stack ≠ [] →
      ∃ keys, forEach (handle callback) (Json.elementEvents elements) (parser, state) =
        .ok ⟨⟩ ({ parser with key_keep_stack := keys }, state)
  | [], parser, _ => ⟨parser.key_keep_stack, rfl⟩
  | element :: rest, parser, opened => by
      obtain ⟨between, ranElement⟩ := run_refused refuses element parser opened
      obtain ⟨keys, ranRest⟩ := run_refused_elements refuses rest
        { parser with key_keep_stack := between } opened
      refine ⟨keys, ?_⟩
      rw [Json.elementEvents, forEach_append_of_ok ranElement]
      exact ranRest

end

end Refused

section Kept

/-- The answers about keys that are left where a value is taken: it belongs to an array, or to an
object whose last key was kept, or is the whole document. -/
def place (parser : CallbackParser) : Option (List Bool) :=
  match parser.ref_stack, parser.key_keep_stack with
  | [], keys | some .array :: _, keys | some .object :: _, true :: keys => some keys
  | _, _ => none

/-- A value is taken by a container that is built. -/
theorem built_of_place {keys : List Bool} (takes : parser.place = some keys) :
    none ∉ parser.ref_stack.head? := by
  intro missing
  obtain ⟨refs, keeps, key_keep_stack⟩ := parser
  cases refs with
  | nil => cases missing
  | cons ref outer =>
      cases missing
      cases takes

theorem store_value_of_place {keys : List Bool} (takes : parser.place = some keys) :
    store_value (parser, state) = .ok true ({ parser with key_keep_stack := keys }, state) := by
  obtain ⟨refs, keeps, key_keep_stack⟩ := parser
  unfold place at takes
  split at takes
  · next empty =>
      cases takes
      cases empty
      rfl
  · next array =>
      cases takes
      cases array
      rfl
  · next object kept =>
      cases takes
      cases object
      cases kept
      rfl
  · cases takes

theorem handle_value_of_place {v : Json} {outer keys : List Bool}
    (keeps : parser.keep_stack = true :: outer) (takes : parser.place = some keys)
    (answers : callback parser.ref_stack.length (.value v) state = .ok true next) :
    handle_value callback v false (parser, state) =
      .ok true ({ parser with key_keep_stack := keys }, next) := by
  obtain ⟨refs, keep_stack, key_keep_stack⟩ := parser
  cases keeps
  unfold handle_value
  rw [get_bind]
  exact (bind_of_ok (call_of_answer answers)).trans (store_value_of_place takes)

theorem start_of_place {event : ParseEvent} {kind : Container} {v : Json} {keys : List Bool}
    (takes : parser.place = some keys)
    (answers : callback parser.ref_stack.length event state = .ok true next) :
    start callback event kind v (parser, state) =
      .ok ⟨⟩ (⟨some kind :: parser.ref_stack, true :: parser.keep_stack, keys⟩, next) := by
  unfold start
  rw [get_bind, bind_of_ok (call_of_answer answers), modify_bind]
  have stored : handle_value callback v true
      ({ parser with keep_stack := true :: parser.keep_stack }, next) = _ :=
    store_value_of_place takes
  rw [bind_of_ok stored]
  rfl

theorem key_of_answer {val : Str} (inside : parser.ref_stack ≠ [])
    (answers : callback parser.ref_stack.length (.key (.string val)) state = .ok true next) :
    key callback val (parser, state) =
      .ok ⟨⟩ ({ parser with key_keep_stack := true :: parser.key_keep_stack }, next) := by
  unfold key
  rw [get_bind, bind_of_ok (call_of_answer answers), modify_bind]
  obtain ⟨refs, keeps, keys⟩ := parser
  cases refs with
  | nil => exact absurd rfl inside
  | cons ref outer => rfl

theorem end_object_of_answer {refs : List (Option Container)} {keeps keys : List Bool}
    {keep answer : Bool} {kind : Container}
    (answers : callback refs.length .object_end state = .ok answer next) :
    end_object callback (⟨some kind :: refs, keep :: keeps, keys⟩, state) =
      .ok ⟨⟩ (⟨refs, keeps, keys⟩, next) := by
  unfold end_object
  have asked : ask_end callback .object_end (⟨some kind :: refs, keep :: keeps, keys⟩, state) = _ :=
    call_of_answer answers
  rw [bind_of_ok asked]
  rfl

/-- An array at whose end the callback is asked is in a container that is built. -/
theorem end_array_of_answer {refs : List (Option Container)} {keeps keys : List Bool}
    {keep answer : Bool} {kind : Container} (built : none ∉ refs.head?)
    (answers : callback refs.length .array_end state = .ok answer next) :
    end_array callback (⟨some kind :: refs, keep :: keeps, keys⟩, state) =
      .ok ⟨⟩ (⟨refs, keeps, keys⟩, next) := by
  unfold end_array
  have asked : ask_end callback .array_end (⟨some kind :: refs, keep :: keeps, keys⟩, state) = _ :=
    call_of_answer answers
  rw [bind_of_ok asked]
  cases refs with
  | nil => cases answer <;> rfl
  | cons ref outer =>
      cases ref with
      | none => exact absurd rfl built
      | some kind => cases answer <;> rfl

end Kept

end CallbackParser

end FlexConfig
