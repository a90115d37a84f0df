import FlexConfig.Json.Value

/-! # JSON pointers

Parsing and printing of pointers, and the three ways the library follows one:
checked access, which raises on a missing location; unchecked access, which
creates the missing location as null; and the containment test.
-/

namespace FlexConfig.Json

open Procedure

namespace Pointer

/-- Every `~` is followed by `0` or `1`. -/
def escapesValid : Str → Bool
  | [] => true
  | '~' :: rest => (rest.head? = some '0' || rest.head? = some '1') && escapesValid rest
  | _ :: rest => escapesValid rest

def unescape (token : Str) : Str :=
  Text.replaceAll ['~', '0'] ['~'] (Text.replaceAll ['~', '1'] ['/'] token)

def escape (token : Str) : Str :=
  Text.replaceAll ['/'] ['~', '1'] (Text.replaceAll ['~'] ['~', '0'] token)

/-- The reference tokens of a pointer text. -/
def parse : Str → Attempt (List Str)
  | [] => .ok []
  | '/' :: rest =>
    let tokens := Text.split '/' rest
    if tokens.all escapesValid then .ok (tokens.map unescape) else .error .raised
  | _ => .error .raised

/-- `to_string`. -/
def print (tokens : List Str) : Str := tokens.flatMap fun token => '/' :: escape token

/-- `back`: raises on the empty pointer. -/
def back (tokens : List Str) : Attempt Str :=
  match tokens.getLast? with
  | some token => .ok token
  | none => .error .raised

end Pointer

def digitValue (c : Char) : Nat := c.toNat - '0'.toNat

/-- The largest value of the library's `size_type`. -/
def maxIndex : Nat := 0xFFFFFFFFFFFFFFFF

/-- The index a reference token denotes in an array. -/
def arrayIndex (token : Str) : Attempt Nat :=
  let value := token.foldl (fun number c => 10 * number + digitValue c) 0
  if token ≠ [] ∧ token.all Char.isDigit ∧ (token.head? = some '0' → token.length = 1) ∧
      value < maxIndex then .ok value
  else .error .raised

/-- Whether unchecked access turns a null under this token into an array. -/
def startsArray (token : Str) : Bool := token.all Char.isDigit || token = ['-']

/-- The index unchecked access uses in an array of some length. -/
def uncheckedIndex (token : Str) (length : Nat) : Attempt Nat :=
  if token = ['-'] then .ok length else arrayIndex token

/-- `operator[]` with a pointer: the value at a location, null where the location
is missing. -/
def pointed : Json → List Str → Attempt Json
  | json, [] => .ok json
  | .object members, token :: rest => pointed ((Keyed.find token members).getD Json.null) rest
  | .array elements, token :: rest => do
    let index ← uncheckedIndex token elements.length
    pointed (elements[index]?.getD Json.null) rest
  | .null, token :: rest =>
    if startsArray token then do
      let _ ← uncheckedIndex token 0
      pointed .null rest
    else pointed .null rest
  | _, _ :: _ => .error .raised

/-- Set an array element, filling the gap before it with nulls. -/
def setElement (elements : List Json) (index : Nat) (value : Json) : List Json :=
  (elements ++ List.replicate (index + 1 - elements.length) Json.null).set index value

/-- The document `operator[]` with a pointer leaves: every missing part of the
location has been created. -/
def touched : Json → List Str → Attempt Json
  | json, [] => .ok json
  | .object members, token :: rest => do
    let inner ← touched ((Keyed.find token members).getD Json.null) rest
    return .object (Keyed.insert token inner members)
  | .array elements, token :: rest => do
    let index ← uncheckedIndex token elements.length
    let inner ← touched (elements[index]?.getD Json.null) rest
    return .array (setElement elements index inner)
  | .null, token :: rest =>
    if startsArray token then do
      let index ← uncheckedIndex token 0
      let inner ← touched .null rest
      return .array (setElement [] index inner)
    else do
      let inner ← touched .null rest
      return .object [(token, inner)]
  | _, _ :: _ => .error .raised

/-- `at` with a pointer, as a location at which the value is rewritten: raises
when the location is missing. -/
def modifyAt (change : Json → Attempt Json) : List Str → Json → Attempt Json
  | [], json => change json
  | token :: rest, .object members =>
    match Keyed.find token members with
    | none => .error .raised
    | some inner => do
      let changed ← modifyAt change rest inner
      return .object (Keyed.insert token changed members)
  | token :: rest, .array elements =>
    if token = ['-'] then .error .raised
    else do
      let index ← arrayIndex token
      match elements[index]? with
      | none => .error .raised
      | some inner => do
        let changed ← modifyAt change rest inner
        return .array (elements.set index changed)
  | _ :: _, _ => .error .raised

/-- `at` with a pointer. -/
def atPointer : Json → List Str → Attempt Json
  | json, [] => .ok json
  | .object members, token :: rest =>
    match Keyed.find token members with
    | none => .error .raised
    | some inner => atPointer inner rest
  | .array elements, token :: rest =>
    if token = ['-'] then .error .raised
    else do
      let index ← arrayIndex token
      match elements[index]? with
      | none => .error .raised
      | some inner => atPointer inner rest
  | _, _ :: _ => .error .raised

/-- A token that the containment test takes for an array index. -/
def indexShaped (token : Str) : Bool :=
  match token with
  | [] => true
  | [c] => c.isDigit
  | c :: rest => (c.isDigit && c ≠ '0') && rest.all Char.isDigit

/-- `contains` with a pointer. -/
def containsPointer : Json → List Str → Attempt Bool
  | _, [] => .ok true
  | .object members, token :: rest =>
    match Keyed.find token members with
    | none => .ok false
    | some inner => containsPointer inner rest
  | .array elements, token :: rest =>
    if token = ['-'] || !indexShaped token then .ok false
    else do
      let index ← arrayIndex token
      match elements[index]? with
      | none => .ok false
      | some inner => containsPointer inner rest
  | _, _ :: _ => .ok false

/-- Unchecked access to a location that a pointer text names. -/
def atText (json : Json) (text : Str) : Attempt Json := do
  let tokens ← Pointer.parse text
  json.pointed tokens

section Append

theorem Pointer.parse_of_ne {c : Char} (other : c ≠ '/') (rest : Str) :
    parse (c :: rest) = .error .raised := by
  unfold parse
  split
  · next impossible => cases impossible
  · next same => exact absurd (List.cons.inj same).1 other
  · rfl

/-- A pointer text behind another is read behind it. -/
theorem Pointer.parse_append (text token : Str) :
    parse (text ++ '/' :: token) = do
      let tokens ← parse text
      let others ← parse ('/' :: token)
      return tokens ++ others := by
  cases text with
  | nil =>
      rw [List.nil_append]
      cases parse ('/' :: token) <;> rfl
  | cons c rest =>
      by_cases slash : c = '/'
      · subst slash
        rw [List.cons_append, parse, parse, parse, Text.split_append_separator, List.all_append,
          List.map_append]
        cases (Text.split '/' rest).all escapesValid with
        | false => rfl
        | true => cases (Text.split '/' token).all escapesValid <;> rfl
      · rw [List.cons_append, parse_of_ne slash, parse_of_ne slash]
        rfl

theorem pointed_append (json : Json) (tokens others : List Str) :
    json.pointed (tokens ++ others) = json.pointed tokens >>= fun inner => inner.pointed others := by
  induction tokens generalizing json with
  | nil => cases json <;> rfl
  | cons token rest ih =>
      rw [List.cons_append]
      cases json with
      | object members => exact ih _
      | array elements =>
          rw [pointed, pointed, bind_assoc]
          exact bind_congr fun index => ih _
      | null =>
          rw [pointed, pointed]
          split
          · rw [bind_assoc]
            exact bind_congr fun _ => ih _
          · exact ih _
      | bool | number | string => rfl

/-- Unchecked access behind a location goes on from the value there. -/
theorem atText_append {json value : Json} {text token : Str} {key : Str}
    (reached : json.atText text = .ok value) (reads : Pointer.parse ('/' :: token) = .ok [key]) :
    json.atText (text ++ '/' :: token) = value.pointed [key] := by
  obtain ⟨tokens, parsed, points⟩ := except_bind_eq_ok.mp reached
  unfold atText
  rw [Pointer.parse_append, parsed, reads]
  change json.pointed (tokens ++ [key]) = _
  rw [pointed_append, points]
  rfl

end Append

section Null

/-- Only the empty text is the pointer to the whole document. -/
theorem Pointer.parse_eq_nil {text : Str} (parsed : Pointer.parse text = .ok []) : text = [] := by
  unfold Pointer.parse at parsed
  split at parsed
  · rfl
  · dsimp only at parsed
    split at parsed
    · next rest _ =>
        have empty := List.map_eq_nil_iff.mp (Except.ok.inj parsed)
        exact absurd empty (Text.split_ne_nil '/' rest)
    · cases parsed
  · cases parsed

/-- Creating a location leaves no null document unless there was one. -/
theorem touched_ne_null {json after : Json} {tokens : List Str} (present : json ≠ .null)
    (created : json.touched tokens = .ok after) : after ≠ .null := by
  cases tokens with
  | nil =>
      rw [touched] at created
      cases created
      exact present
  | cons token rest =>
      cases json with
      | null => exact absurd rfl present
      | object members =>
          rw [touched] at created
          obtain ⟨inner, _, finished⟩ := except_bind_eq_ok.mp created
          cases finished
          simp
      | array elements =>
          rw [touched] at created
          obtain ⟨index, _, created⟩ := except_bind_eq_ok.mp created
          obtain ⟨inner, _, finished⟩ := except_bind_eq_ok.mp created
          cases finished
          simp
      | bool _ => cases created
      | number _ => cases created
      | string _ => cases created

/-- Rewriting below the top leaves a container. -/
theorem modifyAt_ne_null {change : Json → Attempt Json} {token : Str} {rest : List Str}
    {json after : Json} (rewritten : modifyAt change (token :: rest) json = .ok after) :
    after ≠ .null := by
  cases json with
  | object members =>
      rw [modifyAt] at rewritten
      split at rewritten
      · cases rewritten
      · obtain ⟨inner, _, finished⟩ := except_bind_eq_ok.mp rewritten
        cases finished
        simp
  | array elements =>
      rw [modifyAt] at rewritten
      split at rewritten
      · cases rewritten
      · obtain ⟨index, _, rewritten⟩ := except_bind_eq_ok.mp rewritten
        split at rewritten
        · cases rewritten
        · obtain ⟨inner, _, finished⟩ := except_bind_eq_ok.mp rewritten
          cases finished
          simp
  | null => cases rewritten
  | bool _ => cases rewritten
  | number _ => cases rewritten
  | string _ => cases rewritten

end Null

section Print

theorem split_join (separator : Char) (text : Str) :
    ((Text.split separator text).flatMap fun piece => separator :: piece) = separator :: text := by
  induction text with
  | nil => rfl
  | cons c rest ih =>
      unfold Text.split
      by_cases same : c = separator
      · rw [if_pos same, List.flatMap_cons, ih, same]
        rfl
      · rw [if_neg same]
        cases pieces : Text.split separator rest with
        | nil => exact absurd pieces (Text.split_ne_nil separator rest)
        | cons first others =>
            rw [pieces, List.flatMap_cons] at ih
            have tail := List.cons.inj ih
            rw [List.flatMap_cons]
            exact congrArg (fun text => separator :: c :: text) tail.2

theorem escape_tilde (rest : Str) :
    Pointer.escape ('~' :: rest) = '~' :: '0' :: Pointer.escape rest := rfl

theorem escape_slash (rest : Str) :
    Pointer.escape ('/' :: rest) = '~' :: '1' :: Pointer.escape rest := rfl

theorem escape_plain {c : Char} (notTilde : c ≠ '~') (notSlash : c ≠ '/') (rest : Str) :
    Pointer.escape (c :: rest) = c :: Pointer.escape rest := by
  simp [Pointer.escape, Text.replaceAll, Text.replaceFrom, notTilde.symm, notSlash.symm]

theorem unescape_zero (rest : Str) :
    Pointer.unescape ('~' :: '0' :: rest) = '~' :: Pointer.unescape rest := rfl

theorem unescape_one (rest : Str) :
    Pointer.unescape ('~' :: '1' :: rest) = '/' :: Pointer.unescape rest := rfl

theorem unescape_plain {c : Char} (notTilde : c ≠ '~') (rest : Str) :
    Pointer.unescape (c :: rest) = c :: Pointer.unescape rest := by
  simp [Pointer.unescape, Text.replaceAll, Text.replaceFrom, notTilde.symm]

theorem escape_unescape : ∀ {token : Str}, Pointer.escapesValid token = true → '/' ∉ token →
    Pointer.escape (Pointer.unescape token) = token
  | [], _, _ => rfl
  | c :: rest, valid, plain => by
      have notSlash : c ≠ '/' := fun same => plain (same ▸ List.mem_cons_self)
      have plainRest : '/' ∉ rest := fun member => plain (List.mem_cons_of_mem _ member)
      by_cases tilde : c = '~'
      · subst tilde
        rw [Pointer.escapesValid] at valid
        obtain ⟨follows, validRest⟩ := Bool.and_eq_true_iff.mp valid
        cases rest with
        | nil => simp at follows
        | cons d others =>
            have plainOthers : '/' ∉ others := fun member =>
              plainRest (List.mem_cons_of_mem _ member)
            have digit : d = '0' ∨ d = '1' := by simpa using follows
            have validOthers : Pointer.escapesValid others = true := by
              rcases digit with rfl | rfl <;> exact validRest
            rcases digit with rfl | rfl
            · rw [unescape_zero, escape_tilde, escape_unescape validOthers plainOthers]
            · rw [unescape_one, escape_slash, escape_unescape validOthers plainOthers]
      · have validRest : Pointer.escapesValid rest = true := by
          rw [Pointer.escapesValid] at valid
          · exact valid
          · exact fun same => tilde same
        rw [unescape_plain tilde, escape_plain tilde notSlash, escape_unescape validRest plainRest]

/-- A name is read as it was escaped. -/
theorem unescape_escape : ∀ token : Str, Pointer.unescape (Pointer.escape token) = token
  | [] => rfl
  | c :: rest => by
      by_cases tilde : c = '~'
      · rw [tilde, escape_tilde, unescape_zero, unescape_escape rest]
      by_cases slash : c = '/'
      · rw [slash, escape_slash, unescape_one, unescape_escape rest]
      · rw [escape_plain tilde slash, unescape_plain tilde, unescape_escape rest]

theorem escapesValid_escape : ∀ token : Str, Pointer.escapesValid (Pointer.escape token) = true
  | [] => rfl
  | c :: rest => by
      have valid := escapesValid_escape rest
      by_cases tilde : c = '~'
      · rw [tilde, escape_tilde]
        exact valid
      by_cases slash : c = '/'
      · rw [slash, escape_slash]
        exact valid
      · rw [escape_plain tilde slash, Pointer.escapesValid]
        · exact valid
        · exact fun same => tilde same

theorem slash_notMem_escape : ∀ token : Str, '/' ∉ Pointer.escape token
  | [] => List.not_mem_nil
  | c :: rest => by
      have plain := slash_notMem_escape rest
      by_cases tilde : c = '~'
      · rw [tilde, escape_tilde]
        simp [plain]
      by_cases slash : c = '/'
      · rw [slash, escape_slash]
        simp [plain]
      · rw [escape_plain tilde slash]
        simp [plain, Ne.symm slash]

/-- The text of a name behind a separator is read as this name. -/
theorem Pointer.parse_escape (name : Str) : Pointer.parse ('/' :: Pointer.escape name) = .ok [name] := by
  rw [Pointer.parse, Text.split_of_not_mem (slash_notMem_escape name)]
  simp only [List.all_cons, List.all_nil, escapesValid_escape, Bool.and_self, if_true,
    List.map_cons, List.map_nil, unescape_escape]

/-- A pointer text is printed as it was read. -/
theorem Pointer.print_parse {text : Str} {tokens : List Str}
    (parsed : Pointer.parse text = .ok tokens) : Pointer.print tokens = text := by
  unfold Pointer.parse at parsed
  split at parsed
  · cases parsed
    rfl
  · next rest =>
      dsimp only at parsed
      split at parsed
      · next valid =>
          cases parsed
          have restored : ∀ token ∈ Text.split '/' rest,
              Pointer.escape (Pointer.unescape token) = token := fun token member =>
            escape_unescape (List.all_eq_true.mp valid token member) (Text.not_mem_of_mem_split member)
          rw [Pointer.print, List.flatMap_map, ← split_join '/' rest]
          apply List.flatMap_congr
          intro token member
          rw [restored token member]
      · cases parsed
  · cases parsed

end Print

end FlexConfig.Json
