import FlexConfig.Json.Lexer

/-! # Numerals in JSON texts

A numeral is read up to its end, whatever comes behind it that is no part of a numeral. A text that
begins with one is cut behind it.
-/

namespace FlexConfig

section Numbers

/-- No numeral goes on with the next character. -/
def Delimited (rest : Str) : Prop :=
  ∀ c ∈ rest.head?, c.isDigit = false ∧ c ≠ '.' ∧ c ≠ 'e' ∧ c ≠ 'E'

variable {text rest token_buffer read : Str} {number_type found : NumberType}

/-- The digits of an exponent end a numeral. The induction is on them. -/
theorem scan_number_any2_append (delimited : Delimited rest)
    (reads : scan_number_any2 token_buffer text = some (found, read, [])) :
    scan_number_any2 token_buffer (text ++ rest) = some (found, read, rest) := by
  induction text generalizing token_buffer with
  | nil =>
      cases reads
      cases rest with
      | nil => rfl
      | cons c behind =>
          obtain ⟨noDigit, _⟩ := delimited c rfl
          rw [List.nil_append, scan_number_any2, noDigit, if_neg Bool.false_ne_true]
  | cons c text ih =>
      rw [scan_number_any2] at reads
      rw [List.cons_append, scan_number_any2]
      split at reads
      · next digit => rw [if_pos digit, ih reads]
      · cases reads

/-- A sign of an exponent is followed by a digit. -/
theorem scan_number_sign_append (delimited : Delimited rest)
    (reads : scan_number_sign token_buffer text = some (found, read, [])) :
    scan_number_sign token_buffer (text ++ rest) = some (found, read, rest) := by
  cases text with
  | nil => cases reads
  | cons c text =>
      rw [scan_number_sign] at reads
      rw [List.cons_append, scan_number_sign]
      split at reads
      · next digit => rw [if_pos digit, scan_number_any2_append delimited reads]
      · cases reads

theorem scan_number_exponent_append (delimited : Delimited rest)
    (reads : scan_number_exponent token_buffer text = some (found, read, [])) :
    scan_number_exponent token_buffer (text ++ rest) = some (found, read, rest) := by
  cases text with
  | nil => cases reads
  | cons c text =>
      rw [scan_number_exponent] at reads
      rw [List.cons_append, scan_number_exponent]
      split at reads
      · next sign => rw [if_pos sign, scan_number_sign_append delimited reads]
      · next noSign =>
          rw [if_neg noSign]
          split at reads
          · next digit => rw [if_pos digit, scan_number_any2_append delimited reads]
          · cases reads

/-- The digits behind a point end a numeral, or an exponent follows them. -/
theorem scan_number_decimal2_append (delimited : Delimited rest)
    (reads : scan_number_decimal2 token_buffer text = some (found, read, [])) :
    scan_number_decimal2 token_buffer (text ++ rest) = some (found, read, rest) := by
  induction text generalizing token_buffer with
  | nil =>
      cases reads
      cases rest with
      | nil => rfl
      | cons c behind =>
          obtain ⟨noDigit, _, small, great⟩ := delimited c rfl
          rw [List.nil_append, scan_number_decimal2, noDigit, if_neg Bool.false_ne_true,
            if_neg (not_or.mpr ⟨small, great⟩)]
  | cons c text ih =>
      rw [scan_number_decimal2] at reads
      rw [List.cons_append, scan_number_decimal2]
      split at reads
      · next digit => rw [if_pos digit, ih reads]
      · next noDigit =>
          rw [if_neg noDigit]
          split at reads
          · next exponent => rw [if_pos exponent, scan_number_exponent_append delimited reads]
          · cases reads

theorem scan_number_decimal1_append (delimited : Delimited rest)
    (reads : scan_number_decimal1 token_buffer text = some (found, read, [])) :
    scan_number_decimal1 token_buffer (text ++ rest) = some (found, read, rest) := by
  cases text with
  | nil => cases reads
  | cons c text =>
      rw [scan_number_decimal1] at reads
      rw [List.cons_append, scan_number_decimal1]
      split at reads
      · next digit => rw [if_pos digit, scan_number_decimal2_append delimited reads]
      · cases reads

/-- Behind a zero in front stand a point, an exponent or nothing. -/
theorem scan_number_zero_append (delimited : Delimited rest)
    (reads : scan_number_zero number_type token_buffer text = some (found, read, [])) :
    scan_number_zero number_type token_buffer (text ++ rest) = some (found, read, rest) := by
  cases text with
  | nil =>
      cases reads
      cases rest with
      | nil => rfl
      | cons c behind =>
          obtain ⟨_, point, small, great⟩ := delimited c rfl
          rw [List.nil_append, scan_number_zero, if_neg point, if_neg (not_or.mpr ⟨small, great⟩)]
  | cons c text =>
      rw [scan_number_zero] at reads
      rw [List.cons_append, scan_number_zero]
      split at reads
      · next point => rw [if_pos point, scan_number_decimal1_append delimited reads]
      · next noPoint =>
          rw [if_neg noPoint]
          split at reads
          · next exponent => rw [if_pos exponent, scan_number_exponent_append delimited reads]
          · cases reads

/-- Behind other digits in front stands what may stand behind a zero. -/
theorem scan_number_any1_append (delimited : Delimited rest)
    (reads : scan_number_any1 number_type token_buffer text = some (found, read, [])) :
    scan_number_any1 number_type token_buffer (text ++ rest) = some (found, read, rest) := by
  induction text generalizing token_buffer with
  | nil =>
      cases reads
      cases rest with
      | nil => rfl
      | cons c behind =>
          obtain ⟨noDigit, _⟩ := delimited c rfl
          rw [List.nil_append, scan_number_any1, noDigit, if_neg Bool.false_ne_true]
          have ends : ∀ buffer, scan_number_zero number_type buffer [] =
              some (number_type, buffer, []) := fun _ => rfl
          exact scan_number_zero_append delimited (ends _)
  | cons c text ih =>
      rw [scan_number_any1] at reads
      rw [List.cons_append, scan_number_any1]
      split at reads
      · next digit => rw [if_pos digit, ih reads]
      · next noDigit =>
          rw [if_neg noDigit]
          exact scan_number_zero_append delimited reads

theorem scan_number_first_append (delimited : Delimited rest)
    (reads : scan_number_first number_type token_buffer text = some (found, read, [])) :
    scan_number_first number_type token_buffer (text ++ rest) = some (found, read, rest) := by
  cases text with
  | nil => cases reads
  | cons c text =>
      rw [scan_number_first] at reads
      rw [List.cons_append, scan_number_first]
      split at reads
      · next zero => rw [if_pos zero, scan_number_zero_append delimited reads]
      · next notZero =>
          rw [if_neg notZero]
          split at reads
          · next digit => rw [if_pos digit, scan_number_any1_append delimited reads]
          · cases reads

/-- A numeral is read up to its end, whatever comes behind it that is no part of a numeral. -/
theorem scan_number_append (delimited : Delimited rest)
    (reads : scan_number text = some (found, read, [])) :
    scan_number (text ++ rest) = some (found, read, rest) := by
  cases text with
  | nil => cases reads
  | cons c text =>
      by_cases negative : c = '-'
      · rw [negative] at reads ⊢
        exact scan_number_first_append delimited reads
      · rw [scan_number] at reads
        · rw [List.cons_append, scan_number]
          · exact scan_number_first_append delimited reads
          · intro _ same
            exact negative (List.cons.inj same).1
        · intro _ same
          exact negative (List.cons.inj same).1

end Numbers

section Lex

variable {D : Type} {doubles : Doubles D} {text rest read : Str} {found : NumberType}

/-- A numeral begins with a digit or a minus sign. -/
theorem head_of_number (reads : scan_number text = some (found, read, [])) :
    ∃ c behind, text = c :: behind ∧ (c = '-' ∨ c.isDigit = true) := by
  cases text with
  | nil => cases reads
  | cons c behind =>
      refine ⟨c, behind, rfl, ?_⟩
      by_cases negative : c = '-'
      · exact .inl negative
      · rw [scan_number, scan_number_first] at reads
        · split at reads
          · next zero => exact .inr (zero ▸ rfl)
          split at reads
          · next digit => exact .inr digit
          · cases reads
        · intro _ same
          exact negative (List.cons.inj same).1

/-- A text that begins like a number is read as one. -/
theorem scanToken_number {c : Char} (begins : c = '-' ∨ c.isDigit = true)
    (reads : scan_number (c :: text) = some (found, read, rest)) :
    scanToken doubles (c :: text) = (numberToken doubles found read, rest) := by
  rw [scanToken.eq_def]
  split
  case h_12 same =>
    obtain ⟨rfl, rfl⟩ := List.cons.inj same
    have notEnd : ¬ c = '\x00' := by
      rintro rfl
      exact absurd begins (by decide)
    rw [if_neg notEnd, if_pos begins, reads]
  case h_11 same => cases same
  all_goals
    next same =>
      obtain ⟨rfl, _⟩ := List.cons.inj same
      exact absurd begins (by decide)

theorem isSpace_of_number {c : Char} (begins : c = '-' ∨ c.isDigit = true) : isSpace c = false := by
  rw [Bool.eq_false_iff]
  intro space
  unfold isSpace at space
  simp only [Bool.or_eq_true, decide_eq_true_eq] at space
  rcases space with ((rfl | rfl) | rfl) | rfl <;> exact absurd begins (by decide)

/-- A text that begins with a numeral is cut behind it. -/
theorem lex_number (delimited : Delimited rest)
    (reads : scan_number text = some (found, read, []))
    (more : Token.isLast (numberToken doubles found read) = false) :
    lex doubles (text ++ rest) = numberToken doubles found read :: lex doubles rest := by
  obtain ⟨c, behind, rfl, begins⟩ := head_of_number reads
  have scanned := scan_number_append delimited reads
  refine lex_of_scan ?_ more
  unfold scan skip_whitespace
  have solid : isSpace c = false := isSpace_of_number begins
  rw [List.cons_append, List.dropWhile_cons_of_neg (by rw [solid]; exact Bool.false_ne_true)]
  exact scanToken_number begins scanned

end Lex

end FlexConfig
