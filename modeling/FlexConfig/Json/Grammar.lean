import FlexConfig.Json.Lexemes

/-! # The grammar of JSON texts

The rules by which a document is written, without a lexer: white space, values, and what stands
between them. A text is cut into the tokens of a document exactly where it is written by these rules.
-/

namespace FlexConfig

section Documents

variable {D : Type} (doubles : Doubles D)

/-- White space. -/
def Blank (text : Str) : Prop := ∀ c ∈ text, c ∈ [' ', '\t', '\n', '\r']

instance (text : Str) : Decidable (Blank text) := List.decidableBAll _ text

theorem blank_nil : Blank [] := fun _ impossible => absurd impossible List.not_mem_nil

mutual

/-- A document and its text. -/
inductive Spells : BasicJson D → Str → Prop
  | null : Spells .null "null".toList
  | true : Spells (.boolean true) "true".toList
  | false : Spells (.boolean false) "false".toList
  | number {document : BasicJson D} {text : Str} (numeral : Numeral doubles document text) :
      Spells document text
  | string {value written : Str} (characters : Characters value written) :
      Spells (.string value) ('"' :: (written ++ ['"']))
  | emptyArray {blank : Str} (isBlank : Blank blank) : Spells (.array []) ('[' :: (blank ++ [']']))
  | array {elements : List (BasicJson D)} {text : Str} (spells : SpellsElements elements text) :
      Spells (.array elements) ('[' :: (text ++ [']']))
  | emptyObject {blank : Str} (isBlank : Blank blank) :
      Spells (.object []) ('{' :: (blank ++ ['}']))
  | object {members : List (Str × BasicJson D)} {text : Str} (spells : SpellsMembers members text) :
      Spells (.object members) ('{' :: (text ++ ['}']))

/-- The elements of an array, at least one. -/
inductive SpellsElements : List (BasicJson D) → Str → Prop
  | last {element : BasicJson D} {before text after : Str} (blankBefore : Blank before)
      (spells : Spells element text) (blankAfter : Blank after) :
      SpellsElements [element] (before ++ (text ++ after))
  | more {element : BasicJson D} {rest : List (BasicJson D)} {before text after later : Str}
      (blankBefore : Blank before) (spells : Spells element text) (blankAfter : Blank after)
      (others : SpellsElements rest later) :
      SpellsElements (element :: rest) (before ++ (text ++ (after ++ ',' :: later)))

/-- The members of an object, at least one. -/
inductive SpellsMembers : List (Str × BasicJson D) → Str → Prop
  | last {name written : Str} {element : BasicJson D} {before between middle text after : Str}
      (blankBefore : Blank before) (characters : Characters name written)
      (blankBetween : Blank between) (blankMiddle : Blank middle) (spells : Spells element text)
      (blankAfter : Blank after) :
      SpellsMembers [(name, element)] (before ++ '"' :: (written ++ '"' ::
        (between ++ ':' :: (middle ++ (text ++ after)))))
  | more {name written : Str} {element : BasicJson D} {rest : List (Str × BasicJson D)}
      {before between middle text after later : Str} (blankBefore : Blank before)
      (characters : Characters name written) (blankBetween : Blank between)
      (blankMiddle : Blank middle) (spells : Spells element text) (blankAfter : Blank after)
      (others : SpellsMembers rest later) :
      SpellsMembers ((name, element) :: rest) (before ++ '"' :: (written ++ '"' ::
        (between ++ ':' :: (middle ++ (text ++ (after ++ ',' :: later))))))

end

/-- A text is written by the rules for a document. A byte order mark may stand before it, and a
terminator behind it ends the text. -/
def Writes (document : BasicJson D) (text : Str) : Prop :=
  ∃ mark before written after rest, (mark = [] ∨ mark = ['\uFEFF']) ∧ Blank before ∧
    Spells doubles document written ∧ Blank after ∧ (rest = [] ∨ rest.head? = some '\x00') ∧
    text = mark ++ (before ++ (written ++ (after ++ rest)))

section Lexing

variable {doubles} {text rest behind : Str} {token : Token D}

theorem isSpace_iff {c : Char} : isSpace c = true ↔ c ∈ [' ', '\t', '\n', '\r'] := by
  unfold isSpace
  simp only [Bool.or_eq_true, decide_eq_true_eq, List.mem_cons, List.not_mem_nil, or_false,
    or_assoc]

theorem lex_of_blank {blank : Str} (isBlank : Blank blank) :
    lex doubles (blank ++ text) = lex doubles text :=
  lex_of_space fun c member => isSpace_iff.mpr (isBlank c member)

theorem delimited_of_blank {blank : Str} (isBlank : Blank blank) (delimited : Delimited rest) :
    Delimited (blank ++ rest) := by
  cases blank with
  | nil => exact delimited
  | cons first others =>
      intro c same
      cases same
      have space := isBlank first List.mem_cons_self
      simp only [List.mem_cons, List.not_mem_nil, or_false] at space
      rcases space with rfl | rfl | rfl | rfl <;> decide

theorem delimited_of_cons (c : Char) (ends : c ∈ [',', ']', '}', '\x00']) (rest : Str) :
    Delimited (c :: rest) := by
  intro first same
  cases same
  simp only [List.mem_cons, List.not_mem_nil, or_false] at ends
  rcases ends with rfl | rfl | rfl | rfl <;> decide

theorem isLast_numberToken (number_type : NumberType) (buffer : Str) :
    Token.isLast (numberToken doubles number_type buffer) = false := by
  cases number_type with
  | value_float => rfl
  | value_unsigned | value_integer =>
      rw [numberToken]
      split <;> rfl

theorem lex_of_characters {value written : Str} (characters : Characters value written)
    (rest : Str) :
    lex doubles ('"' :: (written ++ '"' :: rest)) = .value_string value :: lex doubles rest := by
  refine lex_of_scan ?_ rfl
  change scanToken doubles ('"' :: (written ++ '"' :: rest)) = _
  rw [scanToken, scan_string_of_characters characters]

mutual

/-- A document is cut into its tokens, whatever stands behind it that does not go on with a
numeral. -/
theorem lex_of_spells : ∀ {document : BasicJson D} {text : Str}, Spells doubles document text →
    ∀ {rest : Str}, Delimited rest →
      lex doubles (text ++ rest) = document.tokens ++ lex doubles rest
  | _, _, .null, _, _ | _, _, .true, _, _ | _, _, .false, _, _ => lex_of_scan rfl rfl
  | _, _, .number numeral, rest, delimited => by
      obtain ⟨found, scanned, tokens⟩ := scan_number_of_numeral numeral
      rw [lex_number delimited scanned (isLast_numberToken _ _), tokens]
      rfl
  | _, _, .string characters, rest, _ => by
      rw [List.cons_append, List.append_assoc]
      exact lex_of_characters characters rest
  | _, _, .emptyArray isBlank, rest, _ => by
      rw [List.cons_append, List.append_assoc]
      have closes : lex doubles (']' :: rest) = .end_array :: lex doubles rest := lex_of_scan rfl rfl
      exact (lex_of_scan rfl rfl).trans (congrArg _ ((lex_of_blank isBlank).trans closes))
  | _, _, .emptyObject isBlank, rest, _ => by
      rw [List.cons_append, List.append_assoc]
      have closes : lex doubles ('}' :: rest) = .end_object :: lex doubles rest :=
        lex_of_scan rfl rfl
      exact (lex_of_scan rfl rfl).trans (congrArg _ ((lex_of_blank isBlank).trans closes))
  | _, _, @Spells.array _ _ elements text spells, rest, _ => by
      have closes : lex doubles (']' :: rest) = .end_array :: lex doubles rest := lex_of_scan rfl rfl
      have inner := lex_of_spellsElements spells (delimited_of_cons ']' (by decide) rest)
      rw [closes] at inner
      have opens : lex doubles ('[' :: (text ++ ']' :: rest)) =
          .begin_array :: lex doubles (text ++ ']' :: rest) := lex_of_scan rfl rfl
      rw [List.cons_append, List.append_assoc]
      refine opens.trans ?_
      rw [inner]
      cases elements with
      | nil => cases spells
      | cons element later =>
          simp only [BasicJson.tokens, BasicJson.laterElements, List.tail_cons, List.cons_append,
            List.nil_append, List.append_assoc]
  | _, _, @Spells.object _ _ members text spells, rest, _ => by
      have closes : lex doubles ('}' :: rest) = .end_object :: lex doubles rest :=
        lex_of_scan rfl rfl
      have inner := lex_of_spellsMembers spells (delimited_of_cons '}' (by decide) rest)
      rw [closes] at inner
      have opens : lex doubles ('{' :: (text ++ '}' :: rest)) =
          .begin_object :: lex doubles (text ++ '}' :: rest) := lex_of_scan rfl rfl
      rw [List.cons_append, List.append_assoc]
      refine opens.trans ?_
      rw [inner]
      cases members with
      | nil => cases spells
      | cons member later =>
          simp only [BasicJson.tokens, BasicJson.laterMembers, List.tail_cons, List.cons_append,
            List.nil_append, List.append_assoc]

theorem lex_of_spellsElements : ∀ {elements : List (BasicJson D)} {text : Str},
    SpellsElements doubles elements text → ∀ {rest : Str}, Delimited rest →
      lex doubles (text ++ rest) = (BasicJson.laterElements elements).tail ++ lex doubles rest
  | _, _, .last blankBefore spells blankAfter, rest, delimited => by
      have inner := lex_of_spells spells (delimited_of_blank blankAfter delimited)
      rw [List.append_assoc, List.append_assoc, lex_of_blank blankBefore, inner,
        lex_of_blank blankAfter]
      simp only [BasicJson.laterElements, List.tail_cons, List.append_nil]
  | _, _, @SpellsElements.more _ _ _ elements _ _ _ later blankBefore spells blankAfter others, rest,
      delimited => by
      have comma : lex doubles (',' :: (later ++ rest)) =
          .value_separator :: lex doubles (later ++ rest) := lex_of_scan rfl rfl
      have inner := lex_of_spells spells (delimited_of_blank blankAfter
        (delimited_of_cons ',' (by decide) (later ++ rest)))
      simp only [List.append_assoc, List.cons_append]
      rw [lex_of_blank blankBefore, inner, lex_of_blank blankAfter, comma,
        lex_of_spellsElements others delimited]
      cases elements with
      | nil => cases others
      | cons element later =>
          simp only [BasicJson.laterElements, List.tail_cons, List.append_assoc, List.cons_append]

theorem lex_of_spellsMembers : ∀ {members : List (Str × BasicJson D)} {text : Str},
    SpellsMembers doubles members text → ∀ {rest : Str}, Delimited rest →
      lex doubles (text ++ rest) = (BasicJson.laterMembers members).tail ++ lex doubles rest
  | _, _, .last blankBefore characters blankBetween blankMiddle spells blankAfter, rest,
      delimited => by
      have inner := lex_of_spells spells (delimited_of_blank blankAfter delimited)
      have colon : ∀ text, lex doubles (':' :: text) = .name_separator :: lex doubles text :=
        fun _ => lex_of_scan rfl rfl
      simp only [List.append_assoc, List.cons_append]
      rw [lex_of_blank blankBefore, lex_of_characters characters, lex_of_blank blankBetween, colon,
        lex_of_blank blankMiddle, inner, lex_of_blank blankAfter]
      simp only [BasicJson.laterMembers, List.tail_cons, List.append_nil, List.cons_append]
  | _, _, @SpellsMembers.more _ _ _ _ _ members _ _ _ _ _ later blankBefore characters blankBetween
      blankMiddle spells blankAfter others, rest, delimited => by
      have comma : lex doubles (',' :: (later ++ rest)) =
          .value_separator :: lex doubles (later ++ rest) := lex_of_scan rfl rfl
      have colon : ∀ text, lex doubles (':' :: text) = .name_separator :: lex doubles text :=
        fun _ => lex_of_scan rfl rfl
      have inner := lex_of_spells spells (delimited_of_blank blankAfter
        (delimited_of_cons ',' (by decide) (later ++ rest)))
      simp only [List.append_assoc, List.cons_append]
      rw [lex_of_blank blankBefore, lex_of_characters characters, lex_of_blank blankBetween, colon,
        lex_of_blank blankMiddle, inner, lex_of_blank blankAfter, comma,
        lex_of_spellsMembers others delimited]
      cases members with
      | nil => cases others
      | cons member later =>
          simp only [BasicJson.laterMembers, List.tail_cons, List.append_assoc, List.cons_append]

end

/-- How a token stands at the beginning of a text. -/
def TokenAt (doubles : Doubles D) : Token D → (text rest : Str) → Prop
  | .literal_true, text, rest => text = 't' :: 'r' :: 'u' :: 'e' :: rest
  | .literal_false, text, rest => text = 'f' :: 'a' :: 'l' :: 's' :: 'e' :: rest
  | .literal_null, text, rest => text = 'n' :: 'u' :: 'l' :: 'l' :: rest
  | .value_string value, text, rest =>
    ∃ written, text = '"' :: (written ++ '"' :: rest) ∧ Characters value written
  | .value_unsigned number, text, rest => ∃ found read,
    scan_number text = some (found, read, rest) ∧
      numberToken doubles found read = .value_unsigned number
  | .value_integer number, text, rest => ∃ found read,
    scan_number text = some (found, read, rest) ∧
      numberToken doubles found read = .value_integer number
  | .value_float number, text, rest => ∃ found read,
    scan_number text = some (found, read, rest) ∧
      numberToken doubles found read = .value_float number
  | .begin_array, text, rest => text = '[' :: rest
  | .begin_object, text, rest => text = '{' :: rest
  | .end_array, text, rest => text = ']' :: rest
  | .end_object, text, rest => text = '}' :: rest
  | .name_separator, text, rest => text = ':' :: rest
  | .value_separator, text, rest => text = ',' :: rest
  | .end_of_input, text, _ => text = [] ∨ text.head? = some '\x00'
  | .parse_error, _, _ => True

theorem tokenAt_number {found : NumberType} {read : Str}
    (scanned : scan_number text = some (found, read, rest)) :
    TokenAt doubles (numberToken doubles found read) text rest := by
  cases same : numberToken doubles found read with
  | value_unsigned | value_integer | value_float => exact ⟨found, read, scanned, same⟩
  | parse_error => exact trivial
  | end_of_input =>
      have more : Token.isLast (numberToken doubles found read) = false :=
        isLast_numberToken found read
      rw [same] at more
      cases more
  | _ =>
      cases found with
      | value_float => cases same
      | value_unsigned | value_integer =>
          rw [numberToken] at same
          split at same <;> cases same

theorem tokenAt_of_scanToken (reads : scanToken doubles text = (token, rest)) :
    TokenAt doubles token text rest := by
  rw [scanToken.eq_def] at reads
  split at reads
  all_goals first
    | (cases reads; rfl)
    | skip
  · split at reads
    · next scanned =>
        cases reads
        obtain ⟨written, rfl, characters⟩ := characters_of_scan_string scanned
        exact ⟨written, rfl, characters⟩
    · cases reads
      exact trivial
  · cases reads
    exact .inl rfl
  · split at reads
    · next terminator =>
        cases reads
        exact .inr (congrArg some terminator)
    split at reads
    · split at reads
      · next scanned =>
          cases reads
          exact tokenAt_number scanned
      · cases reads
        exact trivial
    · cases reads
      exact trivial

/-- The first of the tokens a text is cut into stands at its beginning, behind white space. -/
theorem tokenAt_of_lex {others : List (Token D)} (cut : lex doubles text = token :: others) :
    ∃ blank behind rest, Blank blank ∧ text = blank ++ behind ∧ TokenAt doubles token behind rest ∧
      (token.isLast = false → lex doubles rest = others) := by
  have isBlank : Blank (text.takeWhile isSpace) := fun c member =>
    isSpace_iff.mp (List.all_eq_true.mp List.all_takeWhile c member)
  have split := (List.takeWhile_append_dropWhile (p := isSpace) (l := text)).symm
  rcases read : scan doubles text with ⟨first, rest⟩
  have stands : TokenAt doubles first (skip_whitespace text) rest := tokenAt_of_scanToken read
  cases last : first.isLast with
  | true =>
      rw [lex_of_last read last] at cut
      cases cut
      refine ⟨_, _, rest, isBlank, split, stands, fun more => ?_⟩
      rw [last] at more
      cases more
  | false =>
      rw [lex_of_scan read last] at cut
      cases cut
      exact ⟨_, _, rest, isBlank, split, stands, fun _ => rfl⟩

theorem spells_number {document : BasicJson D} {found : NumberType} {read blank : Str}
    {others : List (Token D)} (isBlank : Blank blank) (same : text = blank ++ behind)
    (scanned : scan_number behind = some (found, read, rest))
    (token : document.tokens = [numberToken doubles found read])
    (later : lex doubles rest = others) :
    ∃ before written rest, Blank before ∧ Spells doubles document written ∧
      text = before ++ (written ++ rest) ∧ lex doubles rest = others := by
  obtain ⟨rfl, numeral⟩ := numeral_of_scan_number scanned token
  exact ⟨blank, read, rest, isBlank, .number numeral, same, later⟩

mutual

/-- A text that is cut into the tokens of a document, and others, begins with its text. -/
theorem spells_of_lex : ∀ (document : BasicJson D) {text : Str} {others : List (Token D)},
    lex doubles text = document.tokens ++ others →
      ∃ before written rest, Blank before ∧ Spells doubles document written ∧
        text = before ++ (written ++ rest) ∧ lex doubles rest = others
  | .null, text, others, cut => by
      obtain ⟨blank, behind, rest, isBlank, rfl, rfl, later⟩ := tokenAt_of_lex cut
      exact ⟨blank, _, rest, isBlank, .null, rfl, later rfl⟩
  | .boolean true, text, others, cut => by
      obtain ⟨blank, behind, rest, isBlank, rfl, rfl, later⟩ := tokenAt_of_lex cut
      exact ⟨blank, _, rest, isBlank, .true, rfl, later rfl⟩
  | .boolean false, text, others, cut => by
      obtain ⟨blank, behind, rest, isBlank, rfl, rfl, later⟩ := tokenAt_of_lex cut
      exact ⟨blank, _, rest, isBlank, .false, rfl, later rfl⟩
  | .number_integer number, text, others, cut => by
      obtain ⟨blank, behind, rest, isBlank, same, ⟨found, read, scanned, token⟩, later⟩ :=
        tokenAt_of_lex cut
      exact spells_number isBlank same scanned (congrArg (List.cons · []) token.symm) (later rfl)
  | .number_unsigned number, text, others, cut => by
      obtain ⟨blank, behind, rest, isBlank, same, ⟨found, read, scanned, token⟩, later⟩ :=
        tokenAt_of_lex cut
      exact spells_number isBlank same scanned (congrArg (List.cons · []) token.symm) (later rfl)
  | .number_float number, text, others, cut => by
      obtain ⟨blank, behind, rest, isBlank, same, ⟨found, read, scanned, token⟩, later⟩ :=
        tokenAt_of_lex cut
      exact spells_number isBlank same scanned (congrArg (List.cons · []) token.symm) (later rfl)
  | .string value, text, others, cut => by
      obtain ⟨blank, behind, rest, isBlank, rfl, ⟨written, rfl, characters⟩, later⟩ :=
        tokenAt_of_lex cut
      exact ⟨blank, _, rest, isBlank, .string characters,
        by simp only [List.cons_append, List.append_assoc, List.nil_append], later rfl⟩
  | .array [], text, others, cut => by
      obtain ⟨blank, behind, rest, isBlank, rfl, rfl, later⟩ := tokenAt_of_lex cut
      obtain ⟨inner, _, behind, isInner, rfl, rfl, ends⟩ := tokenAt_of_lex (later rfl)
      exact ⟨blank, _, behind, isBlank, .emptyArray isInner,
        by simp only [List.cons_append, List.append_assoc, List.nil_append], ends rfl⟩
  | .array (element :: elements), text, others, cut => by
      obtain ⟨blank, behind, rest, isBlank, rfl, rfl, later⟩ := tokenAt_of_lex cut
      have inner : lex doubles rest =
          (BasicJson.laterElements (element :: elements)).tail ++ .end_array :: others := by
        refine (later rfl).trans ?_
        change (element.tokens ++ (BasicJson.laterElements elements ++ [.end_array])) ++ others = _
        simp only [BasicJson.laterElements, List.tail_cons, List.append_assoc, List.cons_append,
          List.nil_append]
      obtain ⟨written, behind, spells, rfl, ends⟩ :=
        spellsElements_of_lex (element :: elements) (List.cons_ne_nil _ _) inner
      exact ⟨blank, _, behind, isBlank, .array spells,
        by simp only [List.cons_append, List.append_assoc, List.nil_append], ends⟩
  | .object [], text, others, cut => by
      obtain ⟨blank, behind, rest, isBlank, rfl, rfl, later⟩ := tokenAt_of_lex cut
      obtain ⟨inner, _, behind, isInner, rfl, rfl, ends⟩ := tokenAt_of_lex (later rfl)
      exact ⟨blank, _, behind, isBlank, .emptyObject isInner,
        by simp only [List.cons_append, List.append_assoc, List.nil_append], ends rfl⟩
  | .object (member :: members), text, others, cut => by
      obtain ⟨blank, behind, rest, isBlank, rfl, rfl, later⟩ := tokenAt_of_lex cut
      have inner : lex doubles rest =
          (BasicJson.laterMembers (member :: members)).tail ++ .end_object :: others := by
        refine (later rfl).trans ?_
        change (.value_string member.1 :: .name_separator ::
          (member.2.tokens ++ (BasicJson.laterMembers members ++ [.end_object]))) ++ others = _
        simp only [BasicJson.laterMembers, List.tail_cons, List.append_assoc, List.cons_append,
          List.nil_append]
      obtain ⟨written, behind, spells, rfl, ends⟩ :=
        spellsMembers_of_lex (member :: members) (List.cons_ne_nil _ _) inner
      exact ⟨blank, _, behind, isBlank, .object spells,
        by simp only [List.cons_append, List.append_assoc, List.nil_append], ends⟩

theorem spellsElements_of_lex : ∀ (elements : List (BasicJson D)), elements ≠ [] →
    ∀ {text : Str} {others : List (Token D)},
      lex doubles text = (BasicJson.laterElements elements).tail ++ .end_array :: others →
        ∃ written rest, SpellsElements doubles elements written ∧ text = written ++ ']' :: rest ∧
          lex doubles rest = others
  | [], empty, _, _, _ => absurd rfl empty
  | [element], _, text, others, cut => by
      rw [BasicJson.laterElements, List.tail_cons, BasicJson.laterElements, List.append_nil] at cut
      obtain ⟨before, written, rest, isBefore, spells, rfl, closes⟩ := spells_of_lex element cut
      obtain ⟨after, _, behind, isAfter, rfl, rfl, ends⟩ := tokenAt_of_lex closes
      exact ⟨_, behind, .last isBefore spells isAfter, by simp only [List.append_assoc], ends rfl⟩
  | element :: next :: later, _, text, others, cut => by
      rw [BasicJson.laterElements, List.tail_cons, List.append_assoc] at cut
      obtain ⟨before, written, rest, isBefore, spells, rfl, goesOn⟩ := spells_of_lex element cut
      obtain ⟨after, _, behind, isAfter, rfl, rfl, more⟩ := tokenAt_of_lex goesOn
      obtain ⟨inner, rest, others, rfl, ends⟩ :=
        spellsElements_of_lex (next :: later) (List.cons_ne_nil _ _) (more rfl)
      exact ⟨_, rest, .more isBefore spells isAfter others,
        by simp only [List.append_assoc, List.cons_append], ends⟩

theorem spellsMembers_of_lex : ∀ (members : List (Str × BasicJson D)), members ≠ [] →
    ∀ {text : Str} {others : List (Token D)},
      lex doubles text = (BasicJson.laterMembers members).tail ++ .end_object :: others →
        ∃ written rest, SpellsMembers doubles members written ∧ text = written ++ '}' :: rest ∧
          lex doubles rest = others
  | [], empty, _, _, _ => absurd rfl empty
  | [(name, element)], _, text, others, cut => by
      rw [BasicJson.laterMembers, List.tail_cons, BasicJson.laterMembers, List.append_nil] at cut
      obtain ⟨before, _, rest, isBefore, rfl, ⟨written, rfl, characters⟩, colon⟩ := tokenAt_of_lex cut
      obtain ⟨between, _, rest, isBetween, rfl, rfl, value⟩ := tokenAt_of_lex (colon rfl)
      obtain ⟨middle, inner, rest, isMiddle, spells, rfl, closes⟩ := spells_of_lex element (value rfl)
      obtain ⟨after, _, behind, isAfter, rfl, rfl, ends⟩ := tokenAt_of_lex closes
      exact ⟨_, behind, .last isBefore characters isBetween isMiddle spells isAfter,
        by simp only [List.append_assoc, List.cons_append], ends rfl⟩
  | (name, element) :: next :: later, _, text, others, cut => by
      rw [BasicJson.laterMembers, List.tail_cons, List.cons_append, List.cons_append,
        List.append_assoc] at cut
      obtain ⟨before, _, rest, isBefore, rfl, ⟨written, rfl, characters⟩, colon⟩ := tokenAt_of_lex cut
      obtain ⟨between, _, rest, isBetween, rfl, rfl, value⟩ := tokenAt_of_lex (colon rfl)
      obtain ⟨middle, inner, rest, isMiddle, spells, rfl, goesOn⟩ := spells_of_lex element (value rfl)
      obtain ⟨after, _, behind, isAfter, rfl, rfl, more⟩ := tokenAt_of_lex goesOn
      obtain ⟨inner, rest, others, rfl, ends⟩ :=
        spellsMembers_of_lex (next :: later) (List.cons_ne_nil _ _) (more rfl)
      exact ⟨_, rest, .more isBefore characters isBetween isMiddle spells isAfter others,
        by simp only [List.append_assoc, List.cons_append], ends⟩

end

end Lexing

variable {doubles} {document : BasicJson D} {text : Str}

theorem tokens_ne_nil (document : BasicJson D) : document.tokens ≠ [] := by
  cases document with
  | boolean value => cases value <;> exact List.cons_ne_nil _ _
  | array elements => cases elements <;> exact List.cons_ne_nil _ _
  | object members => cases members <;> exact List.cons_ne_nil _ _
  | null | number_integer | number_unsigned | number_float | string => exact List.cons_ne_nil _ _

/-- A text is cut into the tokens of a document and the end exactly where it is written by the
rules. -/
theorem writes_iff :
    Writes doubles document text ↔ tokensOf doubles text = document.tokens ++ [.end_of_input] := by
  unfold tokensOf
  constructor
  · rintro ⟨mark, before, written, after, rest, isMark, isBefore, spells, isAfter, ends, rfl⟩
    have delimited : Delimited rest := by
      rcases ends with rfl | terminated
      · exact fun _ impossible => by cases impossible
      · cases rest with
        | nil => cases terminated
        | cons c others =>
            cases terminated
            exact delimited_of_cons '\x00' (by decide) others
    have final : lex doubles rest = [.end_of_input] := by
      rcases ends with rfl | terminated
      · rfl
      · cases rest with
        | nil => cases terminated
        | cons c others =>
            cases terminated
            exact lex_of_last rfl rfl
    have cut : lex doubles (before ++ (written ++ (after ++ rest))) =
        document.tokens ++ [.end_of_input] := by
      rw [lex_of_blank isBefore, lex_of_spells spells (delimited_of_blank isAfter delimited),
        lex_of_blank isAfter, final]
    rcases isMark with rfl | rfl
    · rw [List.nil_append, skip_bom.eq_def]
      split
      · next behind marked =>
          -- a mark is no token
          have wrong : lex doubles ('\uFEFF' :: behind) = [.parse_error] := lex_of_last rfl rfl
          rw [marked, wrong] at cut
          cases tokens : document.tokens with
          | nil => exact absurd tokens (tokens_ne_nil document)
          | cons first others =>
              rw [tokens] at cut
              cases others <;> cases cut
      · exact cut
    · exact cut
  · intro cut
    obtain ⟨before, written, rest, isBefore, spells, same, ends⟩ := spells_of_lex document cut
    obtain ⟨after, behind, _, isAfter, rfl, ended, _⟩ := tokenAt_of_lex ends
    rw [skip_bom.eq_def] at same
    split at same
    · next others =>
        exact ⟨['\uFEFF'], before, written, after, behind, .inr rfl, isBefore, spells, isAfter, ended,
          congrArg (List.cons _) same⟩
    · exact ⟨[], before, written, after, behind, .inl rfl, isBefore, spells, isAfter, ended, same⟩

end Documents

end FlexConfig
