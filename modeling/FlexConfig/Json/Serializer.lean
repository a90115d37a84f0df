import FlexConfig.Json.Grammar

/-! # Writing JSON texts

The serializer of the JSON library writes a document as one line or with an indentation, which it
takes from a buffer of blanks. What it writes of strings and numbers is in the grammar.
-/

namespace FlexConfig

open BasicJson

section Strings

/-- What `snprintf` writes for `%04x`. -/
def hex4 (codepoint : Nat) : Str :=
  [Nat.digitChar (codepoint / 0x1000 % 0x10), Nat.digitChar (codepoint / 0x100 % 0x10),
    Nat.digitChar (codepoint / 0x10 % 0x10), Nat.digitChar (codepoint % 0x10)]

/-- A character in a string: a short escape, an escaped control character, or itself. -/
def dump_codepoint : Char → Str
  | '\x08' => ['\\', 'b']
  | '\t' => ['\\', 't']
  | '\n' => ['\\', 'n']
  | '\x0c' => ['\\', 'f']
  | '\r' => ['\\', 'r']
  | '"' => ['\\', '"']
  | '\\' => ['\\', '\\']
  | c => if c.toNat ≤ 0x1F then '\\' :: 'u' :: hex4 c.toNat else [c]

/-- `serializer::dump_escaped`, where non-ASCII characters are written as they are. -/
def dump_escaped (s : Str) : Str := s.flatMap dump_codepoint

end Strings

section Numbers

/-- The number of digits that `serializer::count_digits` counts, up to four in a round. -/
def count_digits (x : Nat) : Nat :=
  if x < 10 then 1
  else if x < 100 then 2
  else if x < 1000 then 3
  else if x < 10000 then 4
  else count_digits (x / 10000) + 4

/-- Two digits of the table `digits_to_99`. -/
def digits_to_99 (index : Nat) : Str := [Nat.digitChar (index / 10), Nat.digitChar (index % 10)]

/-- Fill the buffer from the end, two digits at a time. -/
def fill_digits (abs_value : Nat) (buffer : Str) : Str :=
  if 100 ≤ abs_value then fill_digits (abs_value / 100) (digits_to_99 (abs_value % 100) ++ buffer)
  else if 10 ≤ abs_value then digits_to_99 abs_value ++ buffer
  else Nat.digitChar abs_value :: buffer

/-- What the buffer has where so many characters were counted: zeros before the digits. -/
def number_buffer (n_chars : Nat) (digits : Str) : Str :=
  List.replicate (n_chars - digits.length) '\x00' ++ digits

/-- `serializer::dump_integer` of an unsigned number. -/
def dump_unsigned (x : UInt64) : Str :=
  if x = 0 then ['0'] else number_buffer (count_digits x.toNat) (fill_digits x.toNat [])

/-- `serializer::remove_sign` of a negative number. -/
def remove_sign (x : Int64) : UInt64 := (-(x + 1)).toUInt64 + 1

/-- `serializer::dump_integer` of a signed number. -/
def dump_integer (x : Int64) : Str :=
  if x = 0 then ['0']
  else if x < 0 then
    '-' :: number_buffer (count_digits (remove_sign x).toNat) (fill_digits (remove_sign x).toNat [])
  else number_buffer (count_digits x.toUInt64.toNat) (fill_digits x.toUInt64.toNat [])

end Numbers

section Dump

/-- Writing with the buffer `indent_string`: how many blanks it has. Whoever writes more than the
buffer and its terminator reads behind its end. -/
abbrev Indenting := StateT Nat Option

variable {D : Type} (doubles : Doubles D) (pretty_print : Bool) (indent_step : Nat)

/-- The indentation one level deeper, in the bits of an `unsigned int`. The buffer is doubled where
it is too short. -/
def deeper (current_indent : Nat) : Indenting Nat :=
  if pretty_print then do
    let new_indent := (current_indent + indent_step) % 2 ^ 32
    modify fun size => if size < new_indent then size * 2 else size
    return new_indent
  else return current_indent

/-- The indentation of a line, where the text has lines. -/
def indentation (indent : Nat) : Indenting Str := fun size =>
  if pretty_print then
    if indent ≤ size + 1 then some ((List.replicate size ' ' ++ ['\x00']).take indent, size) else none
  else some ([], size)

/-- A line break, where the text has lines. -/
def lineBreak : Str := if pretty_print then ['\n'] else []

/-- What stands behind a key. -/
def separator : Str := if pretty_print then [':', ' '] else [':']

namespace BasicJson

mutual

/-- `serializer::dump`. -/
def serialize (current_indent : Nat) : BasicJson D → Indenting Str
  | .object [] => return ['{', '}']
  | .object (first :: rest) => do
    let new_indent ← deeper pretty_print indent_step current_indent
    let text ← serializeMembers new_indent (first :: rest)
    let last ← indentation pretty_print current_indent
    return '{' :: (lineBreak pretty_print ++ text ++ lineBreak pretty_print ++ last ++ ['}'])
  | .array [] => return ['[', ']']
  | .array (first :: rest) => do
    let new_indent ← deeper pretty_print indent_step current_indent
    let text ← serializeElements new_indent (first :: rest)
    let last ← indentation pretty_print current_indent
    return '[' :: (lineBreak pretty_print ++ text ++ lineBreak pretty_print ++ last ++ [']'])
  | .string s => return '"' :: (dump_escaped s ++ ['"'])
  | .boolean true => return "true".toList
  | .boolean false => return "false".toList
  | .number_integer x => return dump_integer x
  | .number_unsigned x => return dump_unsigned x
  | .number_float x => return doubles.to_chars x
  | .null => return "null".toList

/-- The members of an object, with a comma behind each but the last. -/
def serializeMembers (new_indent : Nat) : List (Str × BasicJson D) → Indenting Str
  | [] => return []
  | (name, element) :: rest => do
    let blank ← indentation pretty_print new_indent
    let text ← element.serialize new_indent
    let others ← serializeMembers new_indent rest
    return blank ++ '"' :: (dump_escaped name ++ '"' :: (separator pretty_print ++ (text ++
      if rest.isEmpty then [] else ',' :: (lineBreak pretty_print ++ others))))

def serializeElements (new_indent : Nat) : List (BasicJson D) → Indenting Str
  | [] => return []
  | element :: rest => do
    let blank ← indentation pretty_print new_indent
    let text ← element.serialize new_indent
    let others ← serializeElements new_indent rest
    return blank ++ (text ++ if rest.isEmpty then [] else ',' :: (lineBreak pretty_print ++ others))

end

/-- `basic_json::dump`, with a buffer of 512 blanks. -/
def dump (document : BasicJson D) : Option Str :=
  (document.serialize doubles pretty_print indent_step 0 512).map Prod.fst

end BasicJson

end Dump

section Escapes

theorem codeUnit_hex4 : ∀ codepoint ≤ 0x1F, CodeUnit (hex4 codepoint) codepoint := by
  have known : ∀ codepoint ≤ 0x1F,
      get_codepoint (Nat.digitChar (codepoint / 0x1000 % 0x10))
        (Nat.digitChar (codepoint / 0x100 % 0x10)) (Nat.digitChar (codepoint / 0x10 % 0x10))
        (Nat.digitChar (codepoint % 0x10)) = some codepoint := by
    decide
  exact fun codepoint control => get_codepoint_iff.mp (known codepoint control)

/-- A character is written by the rules. -/
theorem characters_dump_codepoint (c : Char) {value written : Str}
    (rest : Characters value written) :
    Characters (c :: value) (dump_codepoint c ++ written) := by
  unfold dump_codepoint
  split
  case h_8 _ _ _ _ _ _ notQuote notEscape =>
    split
    · next control =>
        have characters : Characters (Char.ofNat c.toNat :: value)
            ('\\' :: 'u' :: (hex4 c.toNat ++ written)) :=
          .codeUnit (codeUnit_hex4 c.toNat control) (.inl (by omega)) rest
        rw [Char.ofNat_toNat] at characters
        exact characters
    · next plain => exact .unescaped notQuote notEscape (Nat.lt_of_not_le plain) rest
  all_goals exact .escape (by decide) rest

theorem characters_dump_escaped (s : Str) : Characters s (dump_escaped s) := by
  induction s with
  | nil => exact .nil
  | cons c s ih =>
      rw [dump_escaped, List.flatMap_cons]
      exact characters_dump_codepoint c ih

end Escapes

section Digits

/-- The buffer is filled with the digits of the number. -/
theorem fill_digits_eq (abs_value : Nat) (buffer : Str) :
    fill_digits abs_value buffer = Nat.toDigits 10 abs_value ++ buffer := by
  fun_induction fill_digits abs_value buffer with
  | case1 abs_value buffer many ih =>
      have ten : 10 ≤ abs_value := by omega
      have hundred : 10 ≤ abs_value / 10 := by omega
      have first : abs_value % 100 / 10 = abs_value / 10 % 10 := by omega
      have second : abs_value % 100 % 10 = abs_value % 10 := by omega
      rw [ih, Nat.toDigits_of_base_le (by decide) ten, Nat.toDigits_of_base_le (by decide) hundred,
        Nat.div_div_eq_div_mul, digits_to_99, first, second, List.append_assoc, List.append_assoc]
      rfl
  | case2 abs_value buffer few many =>
      have single : abs_value / 10 < 10 := by omega
      rw [Nat.toDigits_of_base_le (by decide) many, Nat.toDigits_of_lt_base single,
        digits_to_99]
      rfl
  | case3 abs_value buffer few single =>
      rw [Nat.toDigits_of_lt_base (Nat.lt_of_not_le single)]
      rfl

theorem length_toDigits {number : Nat} (many : 10 ≤ number) :
    (Nat.toDigits 10 number).length = (Nat.toDigits 10 (number / 10)).length + 1 := by
  rw [Nat.toDigits_of_base_le (by decide) many, List.length_append]
  rfl

/-- As many digits are written as have been counted, so that the buffer is filled from the end to
its beginning. -/
theorem count_digits_eq (x : Nat) : count_digits x = (fill_digits x []).length := by
  rw [fill_digits_eq, List.append_nil]
  fun_induction count_digits x with
  | case1 x one => rw [Nat.toDigits_of_lt_base one]; rfl
  | case2 x many two =>
      rw [length_toDigits (by omega), Nat.toDigits_of_lt_base (by omega)]
      rfl
  | case3 x many more three =>
      rw [length_toDigits (by omega), length_toDigits (by omega), Nat.toDigits_of_lt_base (by omega)]
      rfl
  | case4 x _ _ many four =>
      rw [length_toDigits (by omega), length_toDigits (by omega), length_toDigits (by omega),
        Nat.toDigits_of_lt_base (by omega)]
      rfl
  | case5 x _ _ _ many ih =>
      rw [length_toDigits (by omega), length_toDigits (by omega), length_toDigits (by omega),
        length_toDigits (by omega), ih]
      simp only [Nat.div_div_eq_div_mul]

/-- The buffer has the digits and nothing else. -/
theorem number_buffer_eq (x : Nat) :
    number_buffer (count_digits x) (fill_digits x []) = Nat.toDigits 10 x := by
  rw [number_buffer, count_digits_eq, Nat.sub_self, fill_digits_eq, List.append_nil]
  rfl

theorem dump_unsigned_eq (x : UInt64) : dump_unsigned x = Nat.toDigits 10 x.toNat := by
  rw [dump_unsigned, number_buffer_eq]
  split
  · next zero => rw [zero]; rfl
  · rfl

theorem toNat_remove_sign {x : Int64} (negative : x.toInt < 0) :
    (remove_sign x).toNat = x.toInt.natAbs := by
  have least := x.le_toInt
  have next : (x + 1).toInt = x.toInt + 1 := by
    rw [Int64.toInt_add, Int64.toInt_one]
    exact Int.bmod_eq_of_le (by simp; omega) (by simp; omega)
  have back : (-(x + 1)).toInt = -(x.toInt + 1) := by
    rw [Int64.toInt_neg, next]
    exact Int.bmod_eq_of_le (by simp; omega) (by simp; omega)
  have unsigned : (-(x + 1)).toUInt64.toNat = (-(x.toInt + 1)).toNat := by
    rw [Int64.toNat_toUInt64_of_le, ← Int64.toNat_toInt, back]
    rw [Int64.le_iff_toInt_le, back, Int64.toInt_zero]
    omega
  rw [remove_sign, UInt64.toNat_add, unsigned, UInt64.toNat_one, Nat.mod_eq_of_lt (by omega)]
  omega

theorem toNat_toUInt64 {x : Int64} (positive : 0 ≤ x.toInt) :
    x.toUInt64.toNat = x.toInt.natAbs := by
  rw [Int64.toNat_toUInt64_of_le (Int64.le_iff_toInt_le.mpr positive), ← Int64.toNat_toInt]
  omega

/-- A signed number is written with its digits, and with a sign where it is negative. -/
theorem dump_integer_cases (x : Int64) :
    0 ≤ x.toInt ∧ dump_integer x = Nat.toDigits 10 x.toUInt64.toNat ∨
      x.toInt < 0 ∧ dump_integer x = '-' :: Nat.toDigits 10 x.toInt.natAbs := by
  rw [dump_integer]
  by_cases negative : x < 0
  · have below : x.toInt < 0 := Int64.lt_iff_toInt_lt.mp negative
    have notZero : x ≠ 0 := by
      rintro rfl
      cases below
    refine .inr ⟨below, ?_⟩
    rw [if_neg notZero, if_pos negative, number_buffer_eq, toNat_remove_sign below]
  · have least : 0 ≤ x.toInt := Int.not_lt.mp (mt (Int64.lt_iff_toInt_lt (y := 0)).mpr negative)
    refine .inl ⟨least, ?_⟩
    rw [if_neg negative, number_buffer_eq]
    split
    · next zero => rw [zero]; rfl
    · rfl

end Digits

end FlexConfig
