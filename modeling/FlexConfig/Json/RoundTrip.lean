import FlexConfig.Json.Builder
import FlexConfig.Json.Serializer

/-! # Written texts are read back

A document that is written in lines or in one line is written by the rules of the grammar, up to
signed numbers that are not negative. Whoever parses the text has the value of the document again,
provided that floating-point numbers are read back as they are written, and that the lines are
indented by no more blanks than the buffer is given room for.
-/

namespace FlexConfig

open BasicJson

namespace BasicJson

variable {D : Type}

mutual

/-- What is read of a document that was written: a signed number that is not negative is read as
an unsigned one. -/
def reread : BasicJson D → BasicJson D
  | .number_integer x => if x < 0 then .number_integer x else .number_unsigned x.toUInt64
  | .array elements => .array (rereadElements elements)
  | .object members => .object (rereadMembers members)
  | .null => .null
  | .boolean value => .boolean value
  | .number_unsigned x => .number_unsigned x
  | .number_float x => .number_float x
  | .string value => .string value

def rereadElements : List (BasicJson D) → List (BasicJson D)
  | [] => []
  | element :: rest => element.reread :: rereadElements rest

def rereadMembers : List (Str × BasicJson D) → List (Str × BasicJson D)
  | [] => []
  | (name, element) :: rest => (name, element.reread) :: rereadMembers rest

end

mutual

/-- The document is the same. -/
theorem value_reread (doubles : Doubles D) : ∀ document : BasicJson D,
    document.reread.value doubles = document.value doubles
  | .number_integer x => by
      rw [reread]
      split
      · rfl
      · next positive =>
          have least : 0 ≤ x.toInt := by
            rw [Int64.lt_iff_toInt_lt, Int64.toInt_zero] at positive
            omega
          rw [value, value, toNat_toUInt64 least, ← Rat.intCast_natCast, Int.natAbs_of_nonneg least]
  | .array elements => congrArg Json.array (value_rereadElements doubles elements)
  | .object members => congrArg Json.object (value_rereadMembers doubles members)
  | .null | .boolean _ | .number_unsigned _ | .number_float _ | .string _ => rfl

theorem value_rereadElements (doubles : Doubles D) : ∀ elements : List (BasicJson D),
    values doubles (rereadElements elements) = values doubles elements
  | [] => rfl
  | element :: rest => by
      rw [rereadElements, values, values, value_reread doubles element,
        value_rereadElements doubles rest]

theorem value_rereadMembers (doubles : Doubles D) : ∀ members : List (Str × BasicJson D),
    memberValues doubles (rereadMembers members) = memberValues doubles members
  | [] => rfl
  | (name, element) :: rest => by
      rw [rereadMembers, memberValues, memberValues, value_reread doubles element,
        value_rereadMembers doubles rest]

end

end BasicJson

section Numerals

variable {D : Type} {doubles : Doubles D}

/-- What is documented of the conversions of floating-point numbers: a number is written as a
numeral with a fraction or an exponent, and read back as the same number. -/
structure Doubles.RoundTrips (doubles : Doubles D) : Prop where
  numeral : ∀ number,
    scan_number (doubles.to_chars number) = some (.value_float, doubles.to_chars number, [])
  reads : ∀ number, doubles.strtod (doubles.to_chars number) = some number

theorem wholePart_toDigits (number : Nat) : WholePart (Nat.toDigits 10 number) := by
  have isDigits : ∀ c ∈ Nat.toDigits 10 number, c.isDigit = true := fun _ => Digits.isDigit_of_mem
  cases written : Nat.toDigits 10 number with
  | nil => exact absurd written Nat.toDigits_ne_nil
  | cons c digits =>
      rw [written] at isDigits
      obtain ⟨digit, others⟩ := List.forall_mem_cons.mp isDigits
      by_cases zero : c = '0'
      · have begins : (Nat.toDigits 10 number).head? = some '0' := by rw [written, zero]; rfl
        have short := Digits.length_eq_one_of_head begins
        rw [written, List.length_cons, Nat.add_eq_right, List.length_eq_zero_iff] at short
        rw [zero, short]
        exact .zero
      · exact .digits digit zero others

theorem numeral_dump_unsigned (x : UInt64) :
    Numeral doubles (.number_unsigned x) (Nat.toDigits 10 x.toNat) := by
  have numeral : Numeral doubles (.number_unsigned (.ofNat (Digits.value (Nat.toDigits 10 x.toNat))))
      (Nat.toDigits 10 x.toNat) :=
    .unsigned (wholePart_toDigits _) (by rw [Digits.value_toDigits]; exact x.toNat_lt)
  rwa [Digits.value_toDigits, UInt64.ofNat_toNat] at numeral

theorem numeral_dump_integer (x : Int64) :
    Numeral doubles (BasicJson.number_integer x : BasicJson D).reread (dump_integer x) := by
  rw [reread]
  rcases dump_integer_cases x with ⟨least, written⟩ | ⟨below, written⟩
  · have positive : ¬ x < 0 := fun negative => Int.not_lt.mpr least (Int64.lt_iff_toInt_lt.mp negative)
    rw [written, if_neg positive]
    exact numeral_dump_unsigned _
  · have least := x.le_toInt
    have back : (-(x.toInt.natAbs : Int)) = x.toInt := by omega
    rw [written, if_pos (Int64.lt_iff_toInt_lt.mpr below)]
    have numeral : Numeral doubles
        (.number_integer (.ofInt (-Digits.value (Nat.toDigits 10 x.toInt.natAbs))))
        ('-' :: Nat.toDigits 10 x.toInt.natAbs) :=
      .integer (wholePart_toDigits _) (by rw [Digits.value_toDigits]; omega)
    rwa [Digits.value_toDigits, back, Int64.ofInt_toInt] at numeral

theorem numeral_to_chars (roundTrips : doubles.RoundTrips) (x : D) :
    Numeral doubles (.number_float x) (doubles.to_chars x) := by
  have token : (BasicJson.number_float x : BasicJson D).tokens =
      [numberToken doubles .value_float (doubles.to_chars x)] := by
    rw [numberToken, roundTrips.reads]
    rfl
  exact (numeral_of_scan_number (roundTrips.numeral x) token).2

end Numerals

section Indentation

variable {α β : Type} {pretty_print : Bool} {indent_step current indent size next : Nat}

theorem indenting_bind {first : Indenting α} {value : α} (ran : first size = some (value, next))
    (second : α → Indenting β) : (first >>= second) size = second value next := by
  change (first size).bind _ = _
  rw [ran]
  rfl

/-- The buffer has room for the indentation, and for one more level of it once there is one. -/
structure Roomy (indent_step current size : Nat) : Prop where
  least : 512 ≤ size
  within : current ≤ size
  step : current = 0 ∨ indent_step ≤ size

theorem Roomy.mono (roomy : Roomy indent_step current size) (more : size ≤ next) :
    Roomy indent_step current next :=
  ⟨roomy.least.trans more, roomy.within.trans more, roomy.step.imp_right (·.trans more)⟩

/-- One level deeper there is still room, since the buffer is doubled. -/
theorem deeper_of_roomy (small : pretty_print = true → indent_step ≤ 1024)
    (roomy : Roomy indent_step current size) :
    ∃ new_indent next, deeper pretty_print indent_step current size = some (new_indent, next) ∧
      size ≤ next ∧ Roomy indent_step new_indent next := by
  cases pretty_print with
  | false => exact ⟨current, size, rfl, Nat.le_refl _, roomy⟩
  | true =>
      have bound := small rfl
      have wrapped : (current + indent_step) % 2 ^ 32 ≤ current + indent_step := Nat.mod_le _ _
      obtain ⟨least, here, step⟩ := roomy
      refine ⟨_, _, rfl, ?_, ?_, ?_, ?_⟩
      all_goals
        dsimp only
        split
        all_goals omega

theorem indentation_of_le (room : indent ≤ size) :
    ∃ blank, indentation pretty_print indent size = some (blank, size) ∧ Blank blank := by
  unfold indentation
  cases pretty_print with
  | false => exact ⟨[], rfl, blank_nil⟩
  | true =>
      have inside : indent ≤ (List.replicate size ' ').length := by rwa [List.length_replicate]
      refine ⟨_, by rw [if_pos rfl, if_pos (room.trans (Nat.le_succ _))], fun c member => ?_⟩
      rw [List.take_append_of_le_length inside] at member
      rw [List.eq_of_mem_replicate (List.mem_of_mem_take member)]
      exact List.mem_cons_self

theorem blank_lineBreak (pretty_print : Bool) : Blank (lineBreak pretty_print) := by
  cases pretty_print <;> decide

theorem Blank.append {blank more : Str} (first : Blank blank) (second : Blank more) :
    Blank (blank ++ more) := fun c member => (List.mem_append.mp member).elim (first c) (second c)

end Indentation

namespace BasicJson

variable {D : Type} {doubles : Doubles D} {pretty_print : Bool} {indent_step : Nat}

/-- What stands behind a key is a colon and white space. -/
theorem separator_eq (pretty_print : Bool) :
    ∃ middle, Blank middle ∧ separator pretty_print = ':' :: middle := by
  cases pretty_print with
  | false => exact ⟨[], blank_nil, rfl⟩
  | true => exact ⟨[' '], by decide, rfl⟩

mutual

/-- What is written of a document is in the grammar, whatever the layout. -/
theorem spells_serialize (roundTrips : doubles.RoundTrips)
    (small : pretty_print = true → indent_step ≤ 1024) :
    ∀ (document : BasicJson D) {current size : Nat}, Roomy indent_step current size →
      ∃ text next, document.serialize doubles pretty_print indent_step current size =
          some (text, next) ∧ size ≤ next ∧ Spells doubles document.reread text
  | .null, _, _, _ => ⟨_, _, rfl, Nat.le_refl _, .null⟩
  | .boolean true, _, _, _ => ⟨_, _, rfl, Nat.le_refl _, .true⟩
  | .boolean false, _, _, _ => ⟨_, _, rfl, Nat.le_refl _, .false⟩
  | .string s, _, _, _ => ⟨_, _, rfl, Nat.le_refl _, .string (characters_dump_escaped s)⟩
  | .number_integer x, _, _, _ => ⟨_, _, rfl, Nat.le_refl _, .number (numeral_dump_integer x)⟩
  | .number_unsigned x, _, _, _ =>
      ⟨_, _, rfl, Nat.le_refl _,
        .number (by rw [dump_unsigned_eq]; exact numeral_dump_unsigned x)⟩
  | .number_float x, _, _, _ => ⟨_, _, rfl, Nat.le_refl _, .number (numeral_to_chars roundTrips x)⟩
  | .object [], _, _, _ => ⟨_, _, rfl, Nat.le_refl _, .emptyObject blank_nil⟩
  | .array [], _, _, _ => ⟨_, _, rfl, Nat.le_refl _, .emptyArray blank_nil⟩
  | .object (member :: members), current, size, roomy => by
      obtain ⟨new_indent, inner, deepens, more, room⟩ := deeper_of_roomy small roomy
      obtain ⟨text, next, writes, further, spells⟩ :=
        spellsMembers_serialize roundTrips small (member :: members) (List.cons_ne_nil _ _) room
      obtain ⟨last, closes, isBlank⟩ := indentation_of_le
        (roomy.mono (more.trans further)).within
      refine ⟨_, next, ?_, more.trans further, .object
        (spells (blank_lineBreak pretty_print) ((blank_lineBreak pretty_print).append isBlank))⟩
      rw [serialize, indenting_bind deepens, indenting_bind writes, indenting_bind closes]
      simp only [List.append_assoc]
      rfl
  | .array (element :: elements), current, size, roomy => by
      obtain ⟨new_indent, inner, deepens, more, room⟩ := deeper_of_roomy small roomy
      obtain ⟨text, next, writes, further, spells⟩ :=
        spellsElements_serialize roundTrips small (element :: elements) (List.cons_ne_nil _ _) room
      obtain ⟨last, closes, isBlank⟩ := indentation_of_le
        (roomy.mono (more.trans further)).within
      refine ⟨_, next, ?_, more.trans further, .array
        (spells (blank_lineBreak pretty_print) ((blank_lineBreak pretty_print).append isBlank))⟩
      rw [serialize, indenting_bind deepens, indenting_bind writes, indenting_bind closes]
      simp only [List.append_assoc]
      rfl

theorem spellsMembers_serialize (roundTrips : doubles.RoundTrips)
    (small : pretty_print = true → indent_step ≤ 1024) :
    ∀ members : List (Str × BasicJson D), members ≠ [] →
      ∀ {new_indent size : Nat}, Roomy indent_step new_indent size →
      ∃ text next, serializeMembers doubles pretty_print indent_step new_indent members size =
          some (text, next) ∧ size ≤ next ∧
        ∀ {before after : Str}, Blank before → Blank after →
          SpellsMembers doubles (rereadMembers members) (before ++ (text ++ after))
  | [], empty, _, _, _ => absurd rfl empty
  | [(name, element)], _, new_indent, size, roomy => by
      obtain ⟨blank, indents, isBlank⟩ := indentation_of_le roomy.within
      obtain ⟨text, next, writes, more, spells⟩ := spells_serialize roundTrips small element roomy
      obtain ⟨middle, isMiddle, colon⟩ := separator_eq pretty_print
      refine ⟨blank ++ '"' :: (dump_escaped name ++ '"' :: (separator pretty_print ++ (text ++ []))),
        next, ?_, more, fun isBefore isAfter => ?_⟩
      · rw [serializeMembers, indenting_bind indents, indenting_bind writes, serializeMembers]
        rfl
      · have one := SpellsMembers.last (isBefore.append isBlank) (characters_dump_escaped name)
          blank_nil isMiddle spells isAfter
        rw [colon, rereadMembers, rereadMembers]
        simpa only [List.append_assoc, List.cons_append, List.nil_append, List.append_nil]
          using one
  | (name, element) :: following :: later, _, new_indent, size, roomy => by
      obtain ⟨blank, indents, isBlank⟩ := indentation_of_le roomy.within
      obtain ⟨text, next, writes, more, spells⟩ := spells_serialize roundTrips small element roomy
      obtain ⟨others, last, goesOn, further, spellsOthers⟩ := spellsMembers_serialize roundTrips
        small (following :: later) (List.cons_ne_nil _ _) (roomy.mono more)
      obtain ⟨middle, isMiddle, colon⟩ := separator_eq pretty_print
      refine ⟨blank ++ '"' :: (dump_escaped name ++ '"' :: (separator pretty_print ++ (text ++
        ',' :: (lineBreak pretty_print ++ others)))), last, ?_, more.trans further,
        fun isBefore isAfter => ?_⟩
      · rw [serializeMembers, indenting_bind indents, indenting_bind writes, indenting_bind goesOn]
        rfl
      · have one := SpellsMembers.more (isBefore.append isBlank) (characters_dump_escaped name)
          blank_nil isMiddle spells blank_nil
          (spellsOthers (blank_lineBreak pretty_print) isAfter)
        rw [colon, rereadMembers]
        simpa only [List.append_assoc, List.cons_append, List.nil_append, List.append_nil]
          using one

theorem spellsElements_serialize (roundTrips : doubles.RoundTrips)
    (small : pretty_print = true → indent_step ≤ 1024) :
    ∀ elements : List (BasicJson D), elements ≠ [] →
      ∀ {new_indent size : Nat}, Roomy indent_step new_indent size →
      ∃ text next, serializeElements doubles pretty_print indent_step new_indent elements size =
          some (text, next) ∧ size ≤ next ∧
        ∀ {before after : Str}, Blank before → Blank after →
          SpellsElements doubles (rereadElements elements) (before ++ (text ++ after))
  | [], empty, _, _, _ => absurd rfl empty
  | [element], _, new_indent, size, roomy => by
      obtain ⟨blank, indents, isBlank⟩ := indentation_of_le roomy.within
      obtain ⟨text, next, writes, more, spells⟩ := spells_serialize roundTrips small element roomy
      refine ⟨blank ++ (text ++ []), next, ?_, more, fun isBefore isAfter => ?_⟩
      · rw [serializeElements, indenting_bind indents, indenting_bind writes, serializeElements]
        rfl
      · have one := SpellsElements.last (isBefore.append isBlank) spells isAfter
        rw [rereadElements, rereadElements]
        simpa only [List.append_assoc, List.append_nil] using one
  | element :: following :: later, _, new_indent, size, roomy => by
      obtain ⟨blank, indents, isBlank⟩ := indentation_of_le roomy.within
      obtain ⟨text, next, writes, more, spells⟩ := spells_serialize roundTrips small element roomy
      obtain ⟨others, last, goesOn, further, spellsOthers⟩ := spellsElements_serialize roundTrips
        small (following :: later) (List.cons_ne_nil _ _) (roomy.mono more)
      refine ⟨blank ++ (text ++ ',' :: (lineBreak pretty_print ++ others)), last, ?_,
        more.trans further, fun isBefore isAfter => ?_⟩
      · rw [serializeElements, indenting_bind indents, indenting_bind writes, indenting_bind goesOn]
        rfl
      · have one := SpellsElements.more (isBefore.append isBlank) spells blank_nil
          (spellsOthers (blank_lineBreak pretty_print) isAfter)
        rw [rereadElements]
        simpa only [List.append_assoc, List.cons_append, List.nil_append] using one

end

end BasicJson

section RoundTrip

variable {D : Type} {doubles : Doubles D} {pretty_print : Bool} {indent_step : Nat}

/-- A document is written to a text of the same document. -/
theorem writes_dump (roundTrips : doubles.RoundTrips)
    (small : pretty_print = true → indent_step ≤ 1024) (document : BasicJson D) :
    ∃ text, document.dump doubles pretty_print indent_step = some text ∧
      Writes doubles document.reread text := by
  obtain ⟨text, next, writes, _, spells⟩ := spells_serialize roundTrips small document
    (⟨Nat.le_refl _, Nat.zero_le _, .inl rfl⟩ : Roomy indent_step 0 512)
  refine ⟨text, by rw [dump, writes]; rfl, [], [], text, [], [], .inl rfl, blank_nil, spells,
    blank_nil, .inl rfl, ?_⟩
  simp only [List.nil_append, List.append_nil]

/-- A document whose objects are in order is parsed from the text it is written to, in one line or
in lines that are indented by at most 1024 blanks for each level. -/
theorem parse_dump (roundTrips : doubles.RoundTrips)
    (small : pretty_print = true → indent_step ≤ 1024) (document : BasicJson D)
    (sorted : (document.value doubles).Sorted) :
    ∃ text, document.dump doubles pretty_print indent_step = some text ∧
      Json.parse doubles text = .ok (document.value doubles) := by
  obtain ⟨text, writes, written⟩ := writes_dump roundTrips small document
  refine ⟨text, writes, ?_⟩
  rw [Json.parse_of_writes written, BasicJson.value_reread, Json.collected_of_sorted sorted]

end RoundTrip

end FlexConfig

namespace FlexConfig.Sample

/-- Two floating-point numbers and their texts. -/
def twoDoubles : Doubles Bool where
  value number := if number then 3 / 2 else -1 / 5000000
  to_chars number := (if number then "1.5" else "-2e-07").toList
  strtod text := if text = "1.5".toList then some true
    else if text = "-2e-07".toList then some false else none

theorem twoDoubles_roundTrips : twoDoubles.RoundTrips where
  numeral := by decide
  reads := by decide

def variedDocument : BasicJson Bool :=
  .object [(['a', '\n'], .array [.number_integer (-3), .number_integer 3, .number_float false]),
    (['b'], .string ['"', '\x01'])]

/-- A document with numbers of all types and escaped characters, in lines. -/
theorem parse_dump_indented :
    ∃ text, variedDocument.dump twoDoubles true 4 = some text ∧ Json.parse twoDoubles text =
      .ok (.object [(['a', '\n'], .array [.number (-3), .number 3, .number (-1 / 5000000)]),
        (['b'], .string ['"', '\x01'])]) :=
  parse_dump twoDoubles_roundTrips (fun _ => by decide) variedDocument
    ⟨by decide, ⟨trivial, trivial, trivial, trivial⟩, trivial, trivial⟩

end FlexConfig.Sample
