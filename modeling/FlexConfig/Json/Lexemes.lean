import FlexConfig.Json.Document
import FlexConfig.Json.Numerals

/-! # Strings and numerals of JSON texts

The rules by which strings and numbers are written, without a lexer: the escapes of a string, and the
parts of a numeral. The routines of the lexer read what is written by these rules, and nothing else.
-/

namespace FlexConfig

section Strings

/-- A hexadecimal digit, small or great, and its number. -/
def IsHexDigit (c : Char) (number : Nat) : Prop :=
  "0123456789abcdef".toList[number]? = some c ∨ "0123456789ABCDEF".toList[number]? = some c

/-- Four hexadecimal digits and their number. -/
inductive CodeUnit : Str → Nat → Prop
  | digits {c1 c2 c3 c4 : Char} {n1 n2 n3 n4 : Nat} (first : IsHexDigit c1 n1)
      (second : IsHexDigit c2 n2) (third : IsHexDigit c3 n3) (fourth : IsHexDigit c4 n4) :
      CodeUnit [c1, c2, c3, c4] (((n1 * 16 + n2) * 16 + n3) * 16 + n4)

/-- What may stand behind a backslash, the code units apart, and what it stands for. -/
def escapes : List (Char × Char) :=
  [('"', '"'), ('\\', '\\'), ('/', '/'), ('b', '\x08'), ('f', '\x0c'), ('n', '\n'), ('r', '\r'),
    ('t', '\t')]

/-- A string and what is written of it between its quotes. -/
inductive Characters : (value written : Str) → Prop
  | nil : Characters [] []
  | unescaped {c : Char} {value written : Str} (notQuote : c ≠ '"') (notEscape : c ≠ '\\')
      (notControl : 0x1F < c.toNat) (rest : Characters value written) :
      Characters (c :: value) (c :: written)
  | escape {c meant : Char} {value written : Str} (known : (c, meant) ∈ escapes)
      (rest : Characters value written) : Characters (meant :: value) ('\\' :: c :: written)
  | codeUnit {unit value written : Str} {number : Nat} (digits : CodeUnit unit number)
      (notSurrogate : number < 0xD800 ∨ 0xDFFF < number) (rest : Characters value written) :
      Characters (Char.ofNat number :: value) ('\\' :: 'u' :: (unit ++ written))
  | surrogates {highUnit lowUnit value written : Str} {high low : Nat}
      (highDigits : CodeUnit highUnit high) (isHigh : 0xD800 ≤ high ∧ high ≤ 0xDBFF)
      (lowDigits : CodeUnit lowUnit low) (isLow : 0xDC00 ≤ low ∧ low ≤ 0xDFFF)
      (rest : Characters value written) :
      Characters (Char.ofNat (0x10000 + (high - 0xD800) * 0x400 + (low - 0xDC00)) :: value)
        ('\\' :: 'u' :: (highUnit ++ '\\' :: 'u' :: (lowUnit ++ written)))

theorem hexDigit_iff {c : Char} {number : Nat} : hexDigit c = some number ↔ IsHexDigit c number := by
  constructor
  · intro reads
    have small : c.toNat < 128 := by
      unfold hexDigit at reads
      simp only [Char.le_def, UInt32.le_iff_toNat_le] at reads
      change c.val.toNat < 128
      split at reads
      · next bounds => exact bounds.2.trans_lt (by decide)
      split at reads
      · next bounds => exact bounds.2.trans_lt (by decide)
      split at reads
      · next bounds => exact bounds.2.trans_lt (by decide)
      · cases reads
    have each : ∀ code < 128, ∀ digit ∈ hexDigit (Char.ofNat code),
        "0123456789abcdef".toList[digit]? = some (Char.ofNat code) ∨
          "0123456789ABCDEF".toList[digit]? = some (Char.ofNat code) := by
      decide
    have found := each c.toNat small number
    rw [Char.ofNat_toNat] at found
    exact found reads
  · rintro (digit | digit)
    · have each : ∀ known < 16,
          ("0123456789abcdef".toList[known]?).all (fun c => hexDigit c = some known) = true := by
        decide
      have here := each number (List.getElem?_eq_some_iff.mp digit).1
      rw [digit] at here
      exact of_decide_eq_true here
    · have each : ∀ known < 16,
          ("0123456789ABCDEF".toList[known]?).all (fun c => hexDigit c = some known) = true := by
        decide
      have here := each number (List.getElem?_eq_some_iff.mp digit).1
      rw [digit] at here
      exact of_decide_eq_true here

theorem get_codepoint_iff {c1 c2 c3 c4 : Char} {number : Nat} :
    get_codepoint c1 c2 c3 c4 = some number ↔ CodeUnit [c1, c2, c3, c4] number := by
  have same : ∀ n1 n2 n3 n4 : Nat, n1 * 0x1000 + n2 * 0x100 + n3 * 0x10 + n4 =
      ((n1 * 16 + n2) * 16 + n3) * 16 + n4 := by omega
  constructor
  · intro reads
    obtain ⟨n1, first, reads⟩ := Option.bind_eq_some_iff.mp reads
    obtain ⟨n2, second, reads⟩ := Option.bind_eq_some_iff.mp reads
    obtain ⟨n3, third, reads⟩ := Option.bind_eq_some_iff.mp reads
    obtain ⟨n4, fourth, reads⟩ := Option.bind_eq_some_iff.mp reads
    cases reads
    rw [same]
    exact .digits (hexDigit_iff.mp first) (hexDigit_iff.mp second) (hexDigit_iff.mp third)
      (hexDigit_iff.mp fourth)
  · rintro ⟨first, second, third, fourth⟩
    unfold get_codepoint
    rw [hexDigit_iff.mpr first, hexDigit_iff.mpr second, hexDigit_iff.mpr third,
      hexDigit_iff.mpr fourth, ← same]
    rfl

theorem escaped_iff {c meant : Char} : escaped c = some meant ↔ (c, meant) ∈ escapes := by
  constructor
  · intro known
    unfold escaped at known
    split at known
    all_goals first
      | cases known; decide
      | cases known
  · intro known
    have each : ∀ pair ∈ escapes, escaped pair.1 = some pair.2 := by decide
    exact each _ known

theorem exists_codeUnit {unit : Str} {number : Nat} (digits : CodeUnit unit number) :
    ∃ c1 c2 c3 c4, unit = [c1, c2, c3, c4] ∧ get_codepoint c1 c2 c3 c4 = some number := by
  obtain ⟨first, second, third, fourth⟩ := digits
  exact ⟨_, _, _, _, rfl, get_codepoint_iff.mpr (.digits first second third fourth)⟩

/-- A string is read as what it stands for. -/
theorem scan_string_of_characters {value written : Str} (characters : Characters value written)
    (rest : Str) : scan_string (written ++ '"' :: rest) = some (value, rest) := by
  induction characters with
  | nil => rfl
  | unescaped notQuote notEscape notControl _ ih =>
      rw [List.cons_append, scan_string.eq_def]
      split
      · next same => exact absurd (List.cons.inj same).1 notQuote
      · next same => exact absurd (List.cons.inj same).1 notEscape
      · next same => exact absurd (List.cons.inj same).1 notEscape
      · next same =>
          obtain ⟨rfl, rfl⟩ := List.cons.inj same
          rw [if_neg (Nat.not_le.mpr notControl), ih]
          rfl
      · next same => cases same
  | escape known _ ih =>
      have meant := escaped_iff.mpr known
      rw [List.cons_append, List.cons_append, scan_string.eq_def]
      split
      · next same => cases (List.cons.inj same).1
      · next same =>
          obtain ⟨rfl, _⟩ := List.cons.inj (List.cons.inj same).2
          cases meant
      · next same =>
          obtain ⟨rfl, rfl⟩ := List.cons.inj (List.cons.inj same).2
          rw [meant]
          dsimp only
          rw [ih]
          rfl
      · next notEscape same =>
          obtain ⟨rfl, rfl⟩ := List.cons.inj same
          exact (notEscape _ _ rfl rfl).elim
      · next same => cases same
  | codeUnit digits notSurrogate _ ih =>
      obtain ⟨c1, c2, c3, c4, rfl, known⟩ := exists_codeUnit digits
      simp only [List.cons_append, List.nil_append]
      rw [scan_string, known]
      dsimp only
      rw [if_neg (by omega), if_neg (by omega), ih]
      rfl
  | surrogates highDigits isHigh lowDigits isLow _ ih =>
      obtain ⟨c1, c2, c3, c4, rfl, knownHigh⟩ := exists_codeUnit highDigits
      obtain ⟨d1, d2, d3, d4, rfl, knownLow⟩ := exists_codeUnit lowDigits
      simp only [List.cons_append, List.nil_append]
      rw [scan_string, knownHigh]
      simp only [isHigh, knownLow, isLow, and_self, if_true, ih]
      refine congrArg (fun c => some (Char.ofNat c :: _, rest)) ?_
      omega

/-- Whatever is read as a string is written by the rules. -/
theorem characters_of_scan_string {text value rest : Str}
    (reads : scan_string text = some (value, rest)) :
    ∃ written, text = written ++ '"' :: rest ∧ Characters value written := by
  fun_induction scan_string text generalizing value with
  | case1 =>
      cases reads
      exact ⟨[], rfl, .nil⟩
  | case4 c1 c2 c3 c4 codepoint1 known high d1 d2 d3 d4 behind codepoint2 follows low ih =>
      obtain ⟨⟨others, _⟩, inner, pair⟩ := Option.map_eq_some_iff.mp reads
      cases pair
      obtain ⟨written, rfl, characters⟩ := ih inner
      have same : codepoint1 * 0x400 + codepoint2 - 0x35FDC00 =
          0x10000 + (codepoint1 - 0xD800) * 0x400 + (codepoint2 - 0xDC00) := by omega
      rw [same]
      exact ⟨_, rfl, .surrogates (get_codepoint_iff.mp known) high (get_codepoint_iff.mp follows) low
        characters⟩
  | case8 c1 c2 c3 c4 behind codepoint1 known notHigh notLow ih =>
      obtain ⟨⟨others, _⟩, inner, pair⟩ := Option.map_eq_some_iff.mp reads
      cases pair
      obtain ⟨written, rfl, characters⟩ := ih inner
      exact ⟨_, rfl, .codeUnit (get_codepoint_iff.mp known) (by omega) characters⟩
  | case10 c behind others meant stands ih =>
      obtain ⟨⟨later, _⟩, inner, pair⟩ := Option.map_eq_some_iff.mp reads
      cases pair
      obtain ⟨written, rfl, characters⟩ := ih inner
      exact ⟨_, rfl, .escape (escaped_iff.mp stands) characters⟩
  | case12 c behind notQuote notPoint notEscape plain ih =>
      obtain ⟨⟨later, _⟩, inner, pair⟩ := Option.map_eq_some_iff.mp reads
      cases pair
      obtain ⟨written, rfl, characters⟩ := ih inner
      refine ⟨_, rfl, .unescaped notQuote ?_ (Nat.lt_of_not_le plain) characters⟩
      rintro rfl
      cases written with
      | nil => exact notEscape _ _ rfl rfl
      | cons next more => exact notEscape _ _ rfl rfl
  | case2 | case3 | case5 | case6 | case7 | case9 | case11 | case13 => cases reads

end Strings

section Numerals

def AllDigits (text : Str) : Prop := ∀ c ∈ text, c.isDigit = true

/-- The digits of a natural number, without zeros before it. -/
inductive WholePart : Str → Prop
  | zero : WholePart ['0']
  | digits {c : Char} {more : Str} (digit : c.isDigit = true) (notZero : c ≠ '0')
      (others : AllDigits more) : WholePart (c :: more)

inductive Fraction : Str → Prop
  | absent : Fraction []
  | digits {c : Char} {more : Str} (digit : c.isDigit = true) (others : AllDigits more) :
      Fraction ('.' :: c :: more)

inductive Exponent : Str → Prop
  | absent : Exponent []
  | digits {mark c : Char} {sign more : Str} (isMark : mark = 'e' ∨ mark = 'E')
      (isSign : sign = [] ∨ sign = ['+'] ∨ sign = ['-']) (digit : c.isDigit = true)
      (others : AllDigits more) : Exponent (mark :: (sign ++ c :: more))

/-- The type of a numeral with a fraction and an exponent, or with none. -/
def typeWith (number_type : NumberType) (fraction exponent : Str) : NumberType :=
  if fraction = [] ∧ exponent = [] then number_type else .value_float

theorem allDigits_nil : AllDigits [] := fun _ member => absurd member List.not_mem_nil

theorem AllDigits.cons {c : Char} {more : Str} (others : AllDigits more) (digit : c.isDigit = true) :
    AllDigits (c :: more) := List.forall_mem_cons.mpr ⟨digit, others⟩

section Scanned

variable {text rest token_buffer read digits fraction exponent : Str}
  {number_type found : NumberType}

theorem scan_number_any2_of_digits (isDigits : AllDigits digits) :
    scan_number_any2 token_buffer digits = some (.value_float, token_buffer ++ digits, []) := by
  induction digits generalizing token_buffer with
  | nil => rw [List.append_nil]; rfl
  | cons c digits ih =>
      obtain ⟨digit, others⟩ := List.forall_mem_cons.mp isDigits
      rw [scan_number_any2, if_pos digit, ih others, List.append_assoc]
      rfl

theorem scan_number_exponent_of_digits {c : Char} {sign more : Str}
    (isSign : sign = [] ∨ sign = ['+'] ∨ sign = ['-']) (digit : c.isDigit = true)
    (others : AllDigits more) :
    scan_number_exponent token_buffer (sign ++ c :: more) =
      some (.value_float, token_buffer ++ (sign ++ c :: more), []) := by
  rcases isSign with rfl | rfl | rfl
  · have noSign : ¬ (c = '+' ∨ c = '-') := by
      rintro (rfl | rfl) <;> cases digit
    rw [List.nil_append, scan_number_exponent, if_neg noSign, if_pos digit,
      scan_number_any2_of_digits others, List.append_assoc]
    rfl
  · rw [List.singleton_append, scan_number_exponent, if_pos (.inl rfl), scan_number_sign,
      if_pos digit, scan_number_any2_of_digits others, List.append_assoc, List.append_assoc]
    rfl
  · rw [List.singleton_append, scan_number_exponent, if_pos (.inr rfl), scan_number_sign,
      if_pos digit, scan_number_any2_of_digits others, List.append_assoc, List.append_assoc]
    rfl

theorem scan_number_decimal2_of_exponent (isDigits : AllDigits digits)
    (isExponent : Exponent exponent) :
    scan_number_decimal2 token_buffer (digits ++ exponent) =
      some (.value_float, token_buffer ++ (digits ++ exponent), []) := by
  induction digits generalizing token_buffer with
  | nil =>
      cases isExponent with
      | absent => rw [List.append_nil, List.append_nil]; rfl
      | digits isMark isSign digit others =>
          rename_i mark c sign more
          have noDigit : ¬ mark.isDigit = true := by
            rcases isMark with rfl | rfl <;> decide
          rw [List.nil_append, scan_number_decimal2, if_neg noDigit, if_pos isMark,
            scan_number_exponent_of_digits isSign digit others, List.append_assoc]
          rfl
  | cons c digits ih =>
      obtain ⟨digit, others⟩ := List.forall_mem_cons.mp isDigits
      rw [List.cons_append, scan_number_decimal2, if_pos digit, ih others, List.append_assoc]
      rfl

theorem scan_number_zero_of_fraction (isFraction : Fraction fraction)
    (isExponent : Exponent exponent) :
    scan_number_zero number_type token_buffer (fraction ++ exponent) =
      some (typeWith number_type fraction exponent, token_buffer ++ (fraction ++ exponent), []) := by
  cases isFraction with
  | absent =>
      cases isExponent with
      | absent => rw [List.append_nil, List.append_nil]; rfl
      | digits isMark isSign digit others =>
          rename_i mark c sign more
          have noPoint : ¬ mark = '.' := by
            rcases isMark with rfl | rfl <;> decide
          rw [List.nil_append, scan_number_zero, if_neg noPoint, if_pos isMark,
            scan_number_exponent_of_digits isSign digit others, List.append_assoc, typeWith,
            if_neg (fun both => List.cons_ne_nil _ _ both.2)]
          rfl
  | digits digit others =>
      rw [List.cons_append, List.cons_append, scan_number_zero, if_pos rfl, scan_number_decimal1,
        if_pos digit, scan_number_decimal2_of_exponent others isExponent, List.append_assoc,
        List.append_assoc, typeWith, if_neg (fun both => List.cons_ne_nil _ _ both.1)]
      rfl

theorem scan_number_any1_of_fraction (isDigits : AllDigits digits) (isFraction : Fraction fraction)
    (isExponent : Exponent exponent) :
    scan_number_any1 number_type token_buffer (digits ++ (fraction ++ exponent)) =
      some (typeWith number_type fraction exponent,
        token_buffer ++ (digits ++ (fraction ++ exponent)), []) := by
  induction digits generalizing token_buffer with
  | nil =>
      have ends : scan_number_zero number_type token_buffer (fraction ++ exponent) = _ :=
        scan_number_zero_of_fraction isFraction isExponent
      rw [List.nil_append]
      cases tail : fraction ++ exponent with
      | nil =>
          rw [tail] at ends
          exact ends
      | cons c behind =>
          have noDigit : ¬ c.isDigit = true := by
            cases isFraction with
            | digits digit others =>
                cases tail
                decide
            | absent =>
                cases isExponent with
                | absent => cases tail
                | digits isMark _ _ _ =>
                    cases tail
                    rcases isMark with rfl | rfl <;> decide
          rw [scan_number_any1, if_neg noDigit, ← tail]
          exact ends
  | cons c digits ih =>
      obtain ⟨digit, others⟩ := List.forall_mem_cons.mp isDigits
      rw [List.cons_append, scan_number_any1, if_pos digit, ih others, List.append_assoc]
      rfl

/-- A numeral is read to its end. -/
theorem scan_number_first_of_whole {whole : Str} (isWhole : WholePart whole)
    (isFraction : Fraction fraction) (isExponent : Exponent exponent) :
    scan_number_first number_type token_buffer (whole ++ (fraction ++ exponent)) =
      some (typeWith number_type fraction exponent,
        token_buffer ++ (whole ++ (fraction ++ exponent)), []) := by
  cases isWhole with
  | zero =>
      rw [List.cons_append, scan_number_first, if_pos rfl, List.nil_append,
        scan_number_zero_of_fraction isFraction isExponent, List.append_assoc]
      rfl
  | digits digit notZero others =>
      rw [List.cons_append, scan_number_first, if_neg notZero, if_pos digit,
        scan_number_any1_of_fraction others isFraction isExponent, List.append_assoc]
      rfl

theorem digits_of_any2
    (reads : scan_number_any2 token_buffer text = some (found, read, rest)) :
    ∃ digits, AllDigits digits ∧ text = digits ++ rest ∧ read = token_buffer ++ digits ∧
      found = .value_float := by
  fun_induction scan_number_any2 token_buffer text with
  | case1 token_buffer c behind digit ih =>
      obtain ⟨digits, others, rfl, rfl, same⟩ := ih reads
      exact ⟨c :: digits, others.cons digit, rfl, List.append_assoc .., same⟩
  | case2 | case3 =>
      cases reads
      exact ⟨[], allDigits_nil, rfl, (List.append_nil _).symm, rfl⟩

theorem exponent_of_scan {mark : Char} (isMark : mark = 'e' ∨ mark = 'E')
    (reads : scan_number_exponent (token_buffer ++ [mark]) text = some (found, read, rest)) :
    ∃ exponent, Exponent (mark :: exponent) ∧ text = exponent ++ rest ∧
      read = token_buffer ++ mark :: exponent ∧ found = .value_float := by
  cases text with
  | nil => cases reads
  | cons c behind =>
      rw [scan_number_exponent] at reads
      split at reads
      · next isSign =>
          cases behind with
          | nil => cases reads
          | cons next others =>
              rw [scan_number_sign] at reads
              split at reads
              · next digit =>
                  obtain ⟨digits, allDigits, rfl, rfl, same⟩ := digits_of_any2 reads
                  have sign : [c] = [] ∨ [c] = ['+'] ∨ [c] = ['-'] :=
                    .inr (isSign.imp (congrArg (List.cons · [])) (congrArg (List.cons · [])))
                  exact ⟨c :: next :: digits, .digits isMark sign digit allDigits, rfl,
                    by simp only [List.append_assoc, List.cons_append, List.nil_append], same⟩
              · cases reads
      · split at reads
        · next digit =>
            obtain ⟨digits, allDigits, rfl, rfl, same⟩ := digits_of_any2 reads
            exact ⟨c :: digits, .digits isMark (.inl rfl) digit allDigits, rfl,
              by simp only [List.append_assoc, List.cons_append, List.nil_append], same⟩
        · cases reads

theorem exponent_of_decimal2
    (reads : scan_number_decimal2 token_buffer text = some (found, read, rest)) :
    ∃ digits exponent, AllDigits digits ∧ Exponent exponent ∧ text = digits ++ (exponent ++ rest) ∧
      read = token_buffer ++ (digits ++ exponent) ∧ found = .value_float := by
  fun_induction scan_number_decimal2 token_buffer text with
  | case1 token_buffer c behind digit ih =>
      obtain ⟨digits, exponent, others, isExponent, rfl, rfl, same⟩ := ih reads
      exact ⟨c :: digits, exponent, others.cons digit, isExponent, rfl, List.append_assoc .., same⟩
  | case2 token_buffer c behind noDigit isMark =>
      obtain ⟨exponent, isExponent, rfl, rfl, same⟩ := exponent_of_scan isMark reads
      exact ⟨[], c :: exponent, allDigits_nil, isExponent, rfl, rfl, same⟩
  | case3 | case4 =>
      cases reads
      exact ⟨[], [], allDigits_nil, .absent, rfl, (List.append_nil _).symm, rfl⟩

theorem fraction_of_zero
    (reads : scan_number_zero number_type token_buffer text = some (found, read, rest)) :
    ∃ fraction exponent, Fraction fraction ∧ Exponent exponent ∧
      text = fraction ++ (exponent ++ rest) ∧ read = token_buffer ++ (fraction ++ exponent) ∧
      found = typeWith number_type fraction exponent := by
  cases text with
  | nil =>
      cases reads
      exact ⟨[], [], .absent, .absent, rfl, (List.append_nil _).symm, rfl⟩
  | cons c behind =>
      rw [scan_number_zero] at reads
      split at reads
      · next point =>
          cases behind with
          | nil => cases reads
          | cons next others =>
              rw [scan_number_decimal1] at reads
              split at reads
              · next digit =>
                  obtain ⟨digits, exponent, allDigits, isExponent, rfl, rfl, same⟩ :=
                    exponent_of_decimal2 reads
                  refine ⟨'.' :: next :: digits, exponent, .digits digit allDigits, isExponent, ?_,
                    by simp only [point, List.append_assoc, List.cons_append, List.nil_append], ?_⟩
                  · rw [point]
                    rfl
                  · rw [same, typeWith, if_neg fun both => List.cons_ne_nil _ _ both.1]
              · cases reads
      split at reads
      · next isMark =>
          obtain ⟨exponent, isExponent, rfl, rfl, same⟩ := exponent_of_scan isMark reads
          refine ⟨[], c :: exponent, .absent, isExponent, rfl, rfl, ?_⟩
          rw [same, typeWith, if_neg fun both => List.cons_ne_nil _ _ both.2]
      · cases reads
        exact ⟨[], [], .absent, .absent, rfl, (List.append_nil _).symm, rfl⟩

theorem fraction_of_any1
    (reads : scan_number_any1 number_type token_buffer text = some (found, read, rest)) :
    ∃ digits fraction exponent, AllDigits digits ∧ Fraction fraction ∧ Exponent exponent ∧
      text = digits ++ (fraction ++ (exponent ++ rest)) ∧
      read = token_buffer ++ (digits ++ (fraction ++ exponent)) ∧
      found = typeWith number_type fraction exponent := by
  fun_induction scan_number_any1 number_type token_buffer text with
  | case1 token_buffer c behind digit ih =>
      obtain ⟨digits, fraction, exponent, others, isFraction, isExponent, rfl, rfl, same⟩ := ih reads
      exact ⟨c :: digits, fraction, exponent, others.cons digit, isFraction, isExponent, rfl,
        List.append_assoc .., same⟩
  | case2 token_buffer c behind noDigit =>
      obtain ⟨fraction, exponent, isFraction, isExponent, same⟩ := fraction_of_zero reads
      exact ⟨[], fraction, exponent, allDigits_nil, isFraction, isExponent, same⟩
  | case3 =>
      cases reads
      exact ⟨[], [], [], allDigits_nil, .absent, .absent, rfl, (List.append_nil _).symm, rfl⟩

/-- Whatever is read as a number is written by the rules. -/
theorem whole_of_first
    (reads : scan_number_first number_type token_buffer text = some (found, read, rest)) :
    ∃ whole fraction exponent, WholePart whole ∧ Fraction fraction ∧ Exponent exponent ∧
      text = whole ++ (fraction ++ (exponent ++ rest)) ∧
      read = token_buffer ++ (whole ++ (fraction ++ exponent)) ∧
      found = typeWith number_type fraction exponent := by
  cases text with
  | nil => cases reads
  | cons c behind =>
      rw [scan_number_first] at reads
      split at reads
      · next zero =>
          obtain ⟨fraction, exponent, isFraction, isExponent, rfl, rfl, same⟩ :=
            fraction_of_zero reads
          exact ⟨['0'], fraction, exponent, .zero, isFraction, isExponent, by rw [zero]; rfl,
            by rw [zero, List.append_assoc], same⟩
      split at reads
      · next notZero digit =>
          obtain ⟨digits, fraction, exponent, others, isFraction, isExponent, rfl, rfl, same⟩ :=
            fraction_of_any1 reads
          exact ⟨c :: digits, fraction, exponent, .digits digit notZero others, isFraction,
            isExponent, rfl, List.append_assoc .., same⟩
      · cases reads

end Scanned

variable {D : Type} (doubles : Doubles D)

/-- A number and its numeral. A numeral without fraction and exponent is a floating-point number
where no integer type holds it. -/
inductive Numeral : BasicJson D → Str → Prop
  | unsigned {whole : Str} (isWhole : WholePart whole) (fits : Digits.value whole < 2 ^ 64) :
      Numeral (.number_unsigned (.ofNat (Digits.value whole))) whole
  | integer {whole : Str} (isWhole : WholePart whole) (fits : Digits.value whole ≤ 2 ^ 63) :
      Numeral (.number_integer (.ofInt (-Digits.value whole))) ('-' :: whole)
  | positive {whole fraction exponent : Str} {number : D} (isWhole : WholePart whole)
      (isFraction : Fraction fraction) (isExponent : Exponent exponent)
      (noInteger : fraction = [] ∧ exponent = [] → 2 ^ 64 ≤ Digits.value whole)
      (reads : doubles.strtod (whole ++ (fraction ++ exponent)) = some number) :
      Numeral (.number_float number) (whole ++ (fraction ++ exponent))
  | negative {whole fraction exponent : Str} {number : D} (isWhole : WholePart whole)
      (isFraction : Fraction fraction) (isExponent : Exponent exponent)
      (noInteger : fraction = [] ∧ exponent = [] → 2 ^ 63 < Digits.value whole)
      (reads : doubles.strtod ('-' :: (whole ++ (fraction ++ exponent))) = some number) :
      Numeral (.number_float number) ('-' :: (whole ++ (fraction ++ exponent)))

variable {doubles} {document : BasicJson D} {text rest read : Str} {found : NumberType}

theorem head_of_whole {whole : Str} (isWhole : WholePart whole) (rest : Str) :
    ∀ behind, whole ++ rest ≠ '-' :: behind := by
  cases isWhole with
  | zero =>
      rintro behind same
      cases (List.cons.inj same).1
  | digits digit _ _ =>
      rintro behind same
      obtain ⟨rfl, _⟩ := List.cons.inj same
      cases digit

theorem scan_number_of_whole {whole fraction exponent : Str} (isWhole : WholePart whole)
    (isFraction : Fraction fraction) (isExponent : Exponent exponent) :
    scan_number (whole ++ (fraction ++ exponent)) =
      some (typeWith .value_unsigned fraction exponent, whole ++ (fraction ++ exponent), []) := by
  rw [scan_number.eq_2 _ (head_of_whole isWhole _),
    scan_number_first_of_whole isWhole isFraction isExponent]
  rfl

theorem scan_number_of_minus {whole fraction exponent : Str} (isWhole : WholePart whole)
    (isFraction : Fraction fraction) (isExponent : Exponent exponent) :
    scan_number ('-' :: (whole ++ (fraction ++ exponent))) =
      some (typeWith .value_integer fraction exponent, '-' :: (whole ++ (fraction ++ exponent)),
        []) := scan_number_first_of_whole isWhole isFraction isExponent

/-- A numeral is read as the token of its number. -/
theorem scan_number_of_numeral (numeral : Numeral doubles document text) :
    ∃ found, scan_number text = some (found, text, []) ∧
      document.tokens = [numberToken doubles found text] := by
  cases numeral with
  | unsigned isWhole fits =>
      have scanned := scan_number_of_whole isWhole .absent .absent
      rw [List.append_nil, List.append_nil] at scanned
      refine ⟨_, scanned, ?_⟩
      rw [typeWith, if_pos ⟨rfl, rfl⟩, numberToken, if_pos fits]
      rfl
  | integer isWhole fits =>
      have scanned := scan_number_of_minus isWhole .absent .absent
      rw [List.append_nil, List.append_nil] at scanned
      refine ⟨_, scanned, ?_⟩
      rw [typeWith, if_pos ⟨rfl, rfl⟩, numberToken, List.drop_succ_cons, List.drop_zero, if_pos fits]
      rfl
  | @positive whole fraction exponent number isWhole isFraction isExponent noInteger reads =>
      refine ⟨_, scan_number_of_whole isWhole isFraction isExponent, ?_⟩
      rw [typeWith]
      split
      · next none =>
          rw [numberToken, if_neg, reads]
          · rfl
          · rw [none.1, none.2, List.append_nil, List.append_nil]
            exact Nat.not_lt.mpr (noInteger none)
      · rw [numberToken, reads]
        rfl
  | @negative whole fraction exponent number isWhole isFraction isExponent noInteger reads =>
      refine ⟨_, scan_number_of_minus isWhole isFraction isExponent, ?_⟩
      rw [typeWith]
      split
      · next none =>
          rw [numberToken, if_neg, reads]
          · rfl
          · rw [none.1, none.2, List.append_nil, List.append_nil]
            exact Nat.not_le.mpr (noInteger none)
      · rw [numberToken, reads]
        rfl

theorem scan_number_spec (scanned : scan_number text = some (found, read, rest)) :
    text = read ++ rest ∧ ∃ whole fraction exponent, WholePart whole ∧ Fraction fraction ∧
      Exponent exponent ∧
        (read = whole ++ (fraction ++ exponent) ∧
            found = typeWith .value_unsigned fraction exponent ∨
          read = '-' :: (whole ++ (fraction ++ exponent)) ∧
            found = typeWith .value_integer fraction exponent) := by
  rw [scan_number.eq_def] at scanned
  split at scanned
  · obtain ⟨whole, fraction, exponent, isWhole, isFraction, isExponent, rfl, rfl, same⟩ :=
      whole_of_first scanned
    exact ⟨by simp only [List.cons_append, List.append_assoc, List.nil_append], whole, fraction,
      exponent, isWhole, isFraction, isExponent, .inr ⟨rfl, same⟩⟩
  · obtain ⟨whole, fraction, exponent, isWhole, isFraction, isExponent, rfl, rfl, same⟩ :=
      whole_of_first scanned
    exact ⟨by simp only [List.append_assoc, List.nil_append], whole, fraction, exponent, isWhole,
      isFraction, isExponent, .inl ⟨rfl, same⟩⟩

theorem eq_of_tokens_unsigned {number : UInt64} (tokens : document.tokens = [.value_unsigned number]) :
    document = .number_unsigned number := by
  cases document with
  | number_unsigned =>
      cases tokens
      rfl
  | boolean value => cases value <;> cases tokens
  | array elements => cases elements <;> cases tokens
  | object members => cases members <;> cases tokens
  | null | number_integer | number_float | string => cases tokens

theorem eq_of_tokens_integer {number : Int64} (tokens : document.tokens = [.value_integer number]) :
    document = .number_integer number := by
  cases document with
  | number_integer =>
      cases tokens
      rfl
  | boolean value => cases value <;> cases tokens
  | array elements => cases elements <;> cases tokens
  | object members => cases members <;> cases tokens
  | null | number_unsigned | number_float | string => cases tokens

theorem eq_of_tokens_float {read : Option D} (tokens : document.tokens = [.value_float read]) :
    ∃ number, document = .number_float number ∧ read = some number := by
  cases document with
  | number_float number =>
      cases tokens
      exact ⟨number, rfl, rfl⟩
  | boolean value => cases value <;> cases tokens
  | array elements => cases elements <;> cases tokens
  | object members => cases members <;> cases tokens
  | null | number_unsigned | number_integer | string => cases tokens

/-- What is read as a number is a numeral of it. -/
theorem numeral_of_scan_number (scanned : scan_number text = some (found, read, rest))
    (token : document.tokens = [numberToken doubles found read]) :
    text = read ++ rest ∧ Numeral doubles document read := by
  obtain ⟨same, whole, fraction, exponent, isWhole, isFraction, isExponent, kind⟩ :=
    scan_number_spec scanned
  refine ⟨same, ?_⟩
  rcases kind with ⟨rfl, rfl⟩ | ⟨rfl, rfl⟩
  · by_cases fits : (fraction = [] ∧ exponent = []) ∧ Digits.value whole < 2 ^ 64
    · obtain ⟨⟨rfl, rfl⟩, fits⟩ := fits
      rw [List.append_nil, List.append_nil] at token ⊢
      rw [typeWith, if_pos ⟨rfl, rfl⟩, numberToken, if_pos fits] at token
      rw [eq_of_tokens_unsigned token]
      exact .unsigned isWhole fits
    · have noInteger : fraction = [] ∧ exponent = [] → 2 ^ 64 ≤ Digits.value whole :=
        fun none => Nat.le_of_not_lt fun less => fits ⟨none, less⟩
      have isFloat : document.tokens =
          [.value_float (doubles.strtod (whole ++ (fraction ++ exponent)))] := by
        rw [token, typeWith]
        split
        · next none =>
            rw [numberToken, if_neg]
            rw [none.1, none.2, List.append_nil, List.append_nil]
            exact Nat.not_lt.mpr (noInteger none)
        · rfl
      obtain ⟨number, rfl, reads⟩ := eq_of_tokens_float isFloat
      exact .positive isWhole isFraction isExponent noInteger reads
  · by_cases fits : (fraction = [] ∧ exponent = []) ∧ Digits.value whole ≤ 2 ^ 63
    · obtain ⟨⟨rfl, rfl⟩, fits⟩ := fits
      rw [List.append_nil, List.append_nil] at token ⊢
      rw [typeWith, if_pos ⟨rfl, rfl⟩, numberToken, List.drop_succ_cons, List.drop_zero,
        if_pos fits] at token
      rw [eq_of_tokens_integer token]
      exact .integer isWhole fits
    · have noInteger : fraction = [] ∧ exponent = [] → 2 ^ 63 < Digits.value whole :=
        fun none => Nat.lt_of_not_le fun less => fits ⟨none, less⟩
      have isFloat : document.tokens =
          [.value_float (doubles.strtod ('-' :: (whole ++ (fraction ++ exponent))))] := by
        rw [token, typeWith]
        split
        · next none =>
            rw [numberToken, List.drop_succ_cons, List.drop_zero, if_neg]
            rw [none.1, none.2, List.append_nil, List.append_nil]
            exact Nat.not_le.mpr (noInteger none)
        · rfl
      obtain ⟨number, rfl, reads⟩ := eq_of_tokens_float isFloat
      exact .negative isWhole isFraction isExponent noInteger reads

end Numerals

end FlexConfig
