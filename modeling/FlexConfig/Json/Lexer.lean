import Mathlib.Algebra.Group.Nat.Defs
import FlexConfig.Json.Value

/-! # Tokens of JSON texts

The lexer of the JSON library cuts a text into tokens. It reads strings with their escapes, numbers
with a state machine, and stops at the end of the text or at the first character that begins no
token.
-/

namespace FlexConfig

/-- The finite floating-point numbers: their values, how the library writes them, and how the
platform reads them, which may give a number that is not finite. -/
structure Doubles (D : Type) where
  value : D → Rat
  to_chars : D → Str
  strtod : Str → Option D

/-- `token_type`, with the value of the token. -/
inductive Token (D : Type) where
  | literal_true
  | literal_false
  | literal_null
  | value_string (value : Str)
  | value_unsigned (value : UInt64)
  | value_integer (value : Int64)
  | value_float (value : Option D)
  | begin_array
  | begin_object
  | end_array
  | end_object
  | name_separator
  | value_separator
  | parse_error
  | end_of_input

section Strings

/-- The number of a hexadecimal digit. -/
def hexDigit (c : Char) : Option Nat :=
  if '0' ≤ c ∧ c ≤ '9' then some (c.toNat - 0x30)
  else if 'A' ≤ c ∧ c ≤ 'F' then some (c.toNat - 0x37)
  else if 'a' ≤ c ∧ c ≤ 'f' then some (c.toNat - 0x57)
  else none

/-- The code point of four hexadecimal digits. -/
def get_codepoint (c1 c2 c3 c4 : Char) : Option Nat := do
  let first ← hexDigit c1
  let second ← hexDigit c2
  let third ← hexDigit c3
  let fourth ← hexDigit c4
  return first * 0x1000 + second * 0x100 + third * 0x10 + fourth

/-- The character an escape stands for, the one for code points apart. -/
def escaped : Char → Option Char
  | '"' => some '"'
  | '\\' => some '\\'
  | '/' => some '/'
  | 'b' => some '\x08'
  | 'f' => some '\x0c'
  | 'n' => some '\n'
  | 'r' => some '\r'
  | 't' => some '\t'
  | _ => none

/-- A character before what is read behind it. -/
def add (c : Char) (read : Option (Str × Str)) : Option (Str × Str) :=
  read.map fun (value, rest) => (c :: value, rest)

/-- `lexer::scan_string` behind the opening quote: the value, and what is behind the closing one. -/
def scan_string : Str → Option (Str × Str)
  | '"' :: rest => some ([], rest)
  | '\\' :: 'u' :: c1 :: c2 :: c3 :: c4 :: rest =>
    match get_codepoint c1 c2 c3 c4 with
    | none => none
    | some codepoint1 =>
      if 0xD800 ≤ codepoint1 ∧ codepoint1 ≤ 0xDBFF then
        match rest with
        | '\\' :: 'u' :: c1 :: c2 :: c3 :: c4 :: rest =>
          match get_codepoint c1 c2 c3 c4 with
          | none => none
          | some codepoint2 =>
            if 0xDC00 ≤ codepoint2 ∧ codepoint2 ≤ 0xDFFF then
              add (Char.ofNat (codepoint1 * 0x400 + codepoint2 - 0x35FDC00)) (scan_string rest)
            else none
        | _ => none
      else if 0xDC00 ≤ codepoint1 ∧ codepoint1 ≤ 0xDFFF then none
      else add (Char.ofNat codepoint1) (scan_string rest)
  | '\\' :: c :: rest =>
    match escaped c with
    | none => none
    | some meant => add meant (scan_string rest)
  | c :: rest => if c.toNat ≤ 0x1F then none else add c (scan_string rest)
  | [] => none

end Strings

section Numbers

/-- What the state machine takes a number for. -/
inductive NumberType where
  | value_unsigned
  | value_integer
  | value_float
  deriving DecidableEq

/-- A number that was read: its type, its text, and what is behind it. -/
abbrev Scanned := NumberType × Str × Str

/-- The states of `lexer::scan_number`, with the text that has been read. -/
def scan_number_any2 (token_buffer : Str) : Str → Option Scanned
  | c :: rest =>
    if c.isDigit then scan_number_any2 (token_buffer ++ [c]) rest
    else some (.value_float, token_buffer, c :: rest)
  | [] => some (.value_float, token_buffer, [])

def scan_number_sign (token_buffer : Str) : Str → Option Scanned
  | c :: rest => if c.isDigit then scan_number_any2 (token_buffer ++ [c]) rest else none
  | [] => none

def scan_number_exponent (token_buffer : Str) : Str → Option Scanned
  | c :: rest =>
    if c = '+' ∨ c = '-' then scan_number_sign (token_buffer ++ [c]) rest
    else if c.isDigit then scan_number_any2 (token_buffer ++ [c]) rest
    else none
  | [] => none

def scan_number_decimal2 (token_buffer : Str) : Str → Option Scanned
  | c :: rest =>
    if c.isDigit then scan_number_decimal2 (token_buffer ++ [c]) rest
    else if c = 'e' ∨ c = 'E' then scan_number_exponent (token_buffer ++ [c]) rest
    else some (.value_float, token_buffer, c :: rest)
  | [] => some (.value_float, token_buffer, [])

def scan_number_decimal1 (token_buffer : Str) : Str → Option Scanned
  | c :: rest => if c.isDigit then scan_number_decimal2 (token_buffer ++ [c]) rest else none
  | [] => none

/-- Behind the digits before a decimal point. -/
def scan_number_zero (number_type : NumberType) (token_buffer : Str) : Str → Option Scanned
  | c :: rest =>
    if c = '.' then scan_number_decimal1 (token_buffer ++ [c]) rest
    else if c = 'e' ∨ c = 'E' then scan_number_exponent (token_buffer ++ [c]) rest
    else some (number_type, token_buffer, c :: rest)
  | [] => some (number_type, token_buffer, [])

def scan_number_any1 (number_type : NumberType) (token_buffer : Str) : Str → Option Scanned
  | c :: rest =>
    if c.isDigit then scan_number_any1 number_type (token_buffer ++ [c]) rest
    else scan_number_zero number_type token_buffer (c :: rest)
  | [] => some (number_type, token_buffer, [])

/-- The first digit of a number. -/
def scan_number_first (number_type : NumberType) (token_buffer : Str) : Str → Option Scanned
  | c :: rest =>
    if c = '0' then scan_number_zero number_type (token_buffer ++ [c]) rest
    else if c.isDigit then scan_number_any1 number_type (token_buffer ++ [c]) rest
    else none
  | [] => none

/-- A number with the sign it may begin with. -/
def scan_number : Str → Option Scanned
  | '-' :: rest => scan_number_first .value_integer ['-'] rest
  | text => scan_number_first .value_unsigned [] text

variable {D : Type} (doubles : Doubles D)

/-- The token of a number. What no integer type holds is read as a floating-point number. -/
def numberToken : NumberType → (token_buffer : Str) → Token D
  | .value_unsigned, token_buffer =>
    if Digits.value token_buffer < 2 ^ 64 then .value_unsigned (.ofNat (Digits.value token_buffer))
    else .value_float (doubles.strtod token_buffer)
  | .value_integer, token_buffer =>
    if Digits.value (token_buffer.drop 1) ≤ 2 ^ 63 then
      .value_integer (.ofInt (-Digits.value (token_buffer.drop 1)))
    else .value_float (doubles.strtod token_buffer)
  | .value_float, token_buffer => .value_float (doubles.strtod token_buffer)

end Numbers

section Scan

/-- The characters that may stand between tokens. -/
def isSpace (c : Char) : Bool := c = ' ' || c = '\t' || c = '\n' || c = '\r'

def skip_whitespace (text : Str) : Str := text.dropWhile isSpace

variable {D : Type} (doubles : Doubles D)

/-- The token a text begins with, and what is behind it. -/
def scanToken : Str → Token D × Str
  | '[' :: rest => (.begin_array, rest)
  | ']' :: rest => (.end_array, rest)
  | '{' :: rest => (.begin_object, rest)
  | '}' :: rest => (.end_object, rest)
  | ':' :: rest => (.name_separator, rest)
  | ',' :: rest => (.value_separator, rest)
  | 't' :: 'r' :: 'u' :: 'e' :: rest => (.literal_true, rest)
  | 'f' :: 'a' :: 'l' :: 's' :: 'e' :: rest => (.literal_false, rest)
  | 'n' :: 'u' :: 'l' :: 'l' :: rest => (.literal_null, rest)
  | '"' :: rest =>
    match scan_string rest with
    | some (value, rest) => (.value_string value, rest)
    | none => (.parse_error, [])
  | [] => (.end_of_input, [])
  | c :: rest =>
    if c = '\x00' then (.end_of_input, [])
    else if c = '-' ∨ c.isDigit then
      match scan_number (c :: rest) with
      | some (number_type, token_buffer, rest) => (numberToken doubles number_type token_buffer, rest)
      | none => (.parse_error, [])
    else (.parse_error, [])

/-- `lexer::scan`, without the byte order mark. -/
def scan (text : Str) : Token D × Str := scanToken doubles (skip_whitespace text)

/-- No token is asked for behind the end of the text or behind an error. -/
def Token.isLast {D : Type} : Token D → Bool
  | .parse_error | .end_of_input => true
  | _ => false

/-- The tokens of a text, as many as are asked for at most. -/
def scanTokens : (fuel : Nat) → Str → List (Token D)
  | 0, _ => []
  | fuel + 1, text =>
    (scan doubles text).1 ::
      if (scan doubles text).1.isLast then [] else scanTokens fuel (scan doubles text).2

/-- The tokens of a text behind the byte order mark. -/
def lex (text : Str) : List (Token D) := scanTokens doubles (text.length + 1) text

/-- `lexer::skip_bom`. -/
def skip_bom : Str → Str
  | '\uFEFF' :: rest => rest
  | text => text

/-- The tokens of a text. -/
def tokensOf (text : Str) : List (Token D) := lex doubles (skip_bom text)

end Scan

section Progress

variable {text rest token_buffer value : Str} {number_type found : NumberType}

theorem add_eq_some {c : Char} {read : Option (Str × Str)}
    (reads : add c read = some (value, rest)) : ∃ behind, read = some (behind, rest) := by
  obtain ⟨⟨behind, others⟩, same, pair⟩ := Option.map_eq_some_iff.mp reads
  cases pair
  exact ⟨behind, same⟩

theorem scan_string_length (reads : scan_string text = some (value, rest)) :
    rest.length < text.length := by
  fun_induction scan_string text generalizing value with
  | case1 =>
      cases reads
      exact Nat.lt_succ_self _
  | case4 c1 c2 c3 c4 codepoint1 known high d1 d2 d3 d4 behind codepoint2 follows low ih =>
      obtain ⟨others, inner⟩ := add_eq_some reads
      exact (ih inner).trans_le (by simp only [List.length_cons]; omega)
  | case8 c1 c2 c3 c4 behind codepoint1 known notHigh notLow ih =>
      obtain ⟨others, inner⟩ := add_eq_some reads
      exact (ih inner).trans_le (by simp only [List.length_cons]; omega)
  | case10 c behind others meant stands ih =>
      obtain ⟨others, inner⟩ := add_eq_some reads
      exact (ih inner).trans_le (by simp only [List.length_cons]; omega)
  | case12 c behind notQuote notPoint notEscape plain ih =>
      obtain ⟨others, inner⟩ := add_eq_some reads
      exact (ih inner).trans (Nat.lt_succ_self _)
  | case2 | case3 | case5 | case6 | case7 | case9 | case11 | case13 => cases reads

theorem scan_number_any2_length
    (reads : scan_number_any2 token_buffer text = some (found, value, rest)) :
    rest.length ≤ text.length := by
  fun_induction scan_number_any2 token_buffer text with
  | case1 token_buffer c behind digit ih => exact (ih reads).trans (Nat.le_succ _)
  | case2 | case3 =>
      cases reads
      exact Nat.le_refl _

theorem scan_number_sign_length
    (reads : scan_number_sign token_buffer text = some (found, value, rest)) :
    rest.length ≤ text.length := by
  cases text with
  | nil => cases reads
  | cons c behind =>
      rw [scan_number_sign] at reads
      split at reads
      · exact (scan_number_any2_length reads).trans (Nat.le_succ _)
      · cases reads

theorem scan_number_exponent_length
    (reads : scan_number_exponent token_buffer text = some (found, value, rest)) :
    rest.length ≤ text.length := by
  cases text with
  | nil => cases reads
  | cons c behind =>
      rw [scan_number_exponent] at reads
      split at reads
      · exact (scan_number_sign_length reads).trans (Nat.le_succ _)
      split at reads
      · exact (scan_number_any2_length reads).trans (Nat.le_succ _)
      · cases reads

theorem scan_number_decimal2_length
    (reads : scan_number_decimal2 token_buffer text = some (found, value, rest)) :
    rest.length ≤ text.length := by
  fun_induction scan_number_decimal2 token_buffer text with
  | case1 token_buffer c behind digit ih => exact (ih reads).trans (Nat.le_succ _)
  | case2 token_buffer c behind noDigit exponent =>
      exact (scan_number_exponent_length reads).trans (Nat.le_succ _)
  | case3 | case4 =>
      cases reads
      exact Nat.le_refl _

theorem scan_number_decimal1_length
    (reads : scan_number_decimal1 token_buffer text = some (found, value, rest)) :
    rest.length ≤ text.length := by
  cases text with
  | nil => cases reads
  | cons c behind =>
      rw [scan_number_decimal1] at reads
      split at reads
      · exact (scan_number_decimal2_length reads).trans (Nat.le_succ _)
      · cases reads

theorem scan_number_zero_length
    (reads : scan_number_zero number_type token_buffer text = some (found, value, rest)) :
    rest.length ≤ text.length := by
  cases text with
  | nil =>
      cases reads
      exact Nat.le_refl _
  | cons c behind =>
      rw [scan_number_zero] at reads
      split at reads
      · exact (scan_number_decimal1_length reads).trans (Nat.le_succ _)
      split at reads
      · exact (scan_number_exponent_length reads).trans (Nat.le_succ _)
      · cases reads
        exact Nat.le_refl _

theorem scan_number_any1_length
    (reads : scan_number_any1 number_type token_buffer text = some (found, value, rest)) :
    rest.length ≤ text.length := by
  fun_induction scan_number_any1 number_type token_buffer text with
  | case1 token_buffer c behind digit ih => exact (ih reads).trans (Nat.le_succ _)
  | case2 token_buffer c behind noDigit => exact scan_number_zero_length reads
  | case3 =>
      cases reads
      exact Nat.le_refl _

theorem scan_number_first_length
    (reads : scan_number_first number_type token_buffer text = some (found, value, rest)) :
    rest.length < text.length := by
  cases text with
  | nil => cases reads
  | cons c behind =>
      rw [scan_number_first] at reads
      split at reads
      · exact (scan_number_zero_length reads).trans_lt (Nat.lt_succ_self _)
      split at reads
      · exact (scan_number_any1_length reads).trans_lt (Nat.lt_succ_self _)
      · cases reads

theorem scan_number_length (reads : scan_number text = some (found, value, rest)) :
    rest.length < text.length := by
  rw [scan_number.eq_def] at reads
  split at reads
  · exact (scan_number_first_length reads).trans (Nat.lt_succ_self _)
  · exact scan_number_first_length reads

variable {D : Type} {doubles : Doubles D} {token : Token D}

/-- A token behind which there are others takes at least a character. -/
theorem scanToken_length (reads : scanToken doubles text = (token, rest))
    (more : token.isLast = false) : rest.length < text.length := by
  rw [scanToken.eq_def] at reads
  split at reads
  all_goals first
    | (cases reads; simp only [List.length_cons]; omega)
    | skip
  · split at reads
    · next scanned =>
        cases reads
        exact (scan_string_length scanned).trans (Nat.lt_succ_self _)
    · cases reads
      cases more
  · cases reads
    cases more
  · split at reads
    · cases reads
      cases more
    split at reads
    · split at reads
      · next scanned =>
          cases reads
          exact scan_number_length scanned
      · cases reads
        cases more
    · cases reads
      cases more

theorem skip_whitespace_length (text : Str) : (skip_whitespace text).length ≤ text.length :=
  (List.dropWhile_sublist _).length_le

theorem scan_length (reads : scan doubles text = (token, rest)) (more : token.isLast = false) :
    rest.length < text.length :=
  (scanToken_length reads more).trans_le (skip_whitespace_length text)

/-- Fuel for each character and the end is enough. -/
theorem scanTokens_of_enough {fuel : Nat} (enough : text.length < fuel) :
    scanTokens doubles fuel text = scanTokens doubles (text.length + 1) text := by
  induction fuel using Nat.strongRecOn generalizing text with
  | ind fuel ih =>
      cases fuel with
      | zero => exact absurd enough (Nat.not_lt_zero _)
      | succ fuel =>
          rw [scanTokens, scanTokens]
          cases last : (scan doubles text).1.isLast with
          | true => rfl
          | false =>
              have shorter : (scan doubles text).2.length < text.length := scan_length rfl last
              have here := ih fuel (Nat.lt_succ_self _)
                (Nat.lt_of_lt_of_le shorter (Nat.le_of_lt_succ enough))
              have there := ih text.length enough shorter
              rw [here, ← there]

/-- The first token, where others follow. -/
theorem lex_of_scan (reads : scan doubles text = (token, rest)) (more : token.isLast = false) :
    lex doubles text = token :: lex doubles rest := by
  unfold lex
  rw [scanTokens, reads]
  simp only [more, Bool.false_eq_true, if_false]
  rw [scanTokens_of_enough (scan_length reads more)]

theorem lex_of_last (reads : scan doubles text = (token, rest)) (last : token.isLast = true) :
    lex doubles text = [token] := by
  unfold lex
  rw [scanTokens, reads]
  simp only [last, if_true]

theorem scan_of_space {spaces : Str} (blank : ∀ c ∈ spaces, isSpace c = true) :
    scan doubles (spaces ++ text) = scan doubles text := by
  unfold scan skip_whitespace
  rw [List.dropWhile_append_of_pos blank]

/-- Spaces before the first token are passed over. -/
theorem lex_of_space {spaces : Str} (blank : ∀ c ∈ spaces, isSpace c = true) :
    lex doubles (spaces ++ text) = lex doubles text := by
  rcases read : scan doubles text with ⟨token, rest⟩
  cases last : token.isLast with
  | true => rw [lex_of_last read last, lex_of_last ((scan_of_space blank).trans read) last]
  | false => rw [lex_of_scan read last, lex_of_scan ((scan_of_space blank).trans read) last]

end Progress

end FlexConfig
