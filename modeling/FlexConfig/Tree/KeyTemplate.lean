import FlexConfig.Tree.XPath

/-! # Paths with some of their tokens written as `[@key]`

Such a template is evaluated for a node by writing one name for every `[@key]`: that of
the parent of the nearest node upward which is named like the token behind the last
`[@key]`, or the node's own. It gives the path of the node back exactly where all the
tokens are that name (`template_evaluates_iff`).
-/

namespace FlexConfig.XPath

/-- A token of a path, and whether a template has `[@key]` in its place. -/
abbrev Part := Str × Bool

/-- How a template writes a token. -/
def writePart (part : Part) : Str :=
  if part.2 then ITEM_NAME_SUBSCRIPT else SEPARATOR ++ part.1

/-- The text of a template. -/
def writeTemplate (parts : List Part) : Str := parts.flatMap writePart

/-- Join tokens, each behind a separator. -/
def join (tokens : List Str) : Str := tokens.flatMap (SEPARATOR ++ ·)

/-- What `[@key]` is to be read as behind the token `wanted`, for the node at a location:
the name of the parent of the nearest node upward with that name, the node's own name
where there is none. -/
def KeyStandsFor (location : Location) (wanted name : Str) : Prop :=
  (∃ above below, location = above ++ wanted :: below ∧ wanted ∉ below ∧ name = nameOf above) ∨
    wanted ∉ location ∧ name = location.getLast?.getD []

/-- The last place of a name. -/
theorem exists_last_place {name : Str} {location : Location} (member : name ∈ location) :
    ∃ above below, location = above ++ name :: below ∧ name ∉ below := by
  induction location with
  | nil => cases member
  | cons first rest ih =>
      by_cases later : name ∈ rest
      · obtain ⟨above, below, split, fresh⟩ := ih later
        exact ⟨first :: above, below, by rw [split]; rfl, fresh⟩
      · rcases List.mem_cons.mp member with rfl | inRest
        · exact ⟨[], rest, rfl, later⟩
        · exact absurd inRest later

theorem dropWhile_other {wanted : Str} {names rest : List Str} (absent : wanted ∉ names) :
    (names ++ rest).dropWhile (· ≠ wanted) = rest.dropWhile (· ≠ wanted) := by
  refine List.dropWhile_append_of_pos fun name member => decide_eq_true fun same => ?_
  exact absent (same ▸ member)

theorem resolveKeyName_of_place {above below : Location} {wanted : Str} (fresh : wanted ∉ below) :
    resolveKeyName (above ++ wanted :: below) wanted = nameOf above := by
  have reversed : (above ++ wanted :: below).reverse ++ [ROOT_TOKEN] =
      below.reverse ++ (wanted :: (above.reverse ++ [ROOT_TOKEN])) := by
    simp
  have absent : wanted ∉ below.reverse := fun member => fresh (List.mem_reverse.mp member)
  have stops : (wanted :: (above.reverse ++ [ROOT_TOKEN])).dropWhile (· ≠ wanted) =
      wanted :: (above.reverse ++ [ROOT_TOKEN]) := by
    simp
  unfold resolveKeyName
  rw [reversed, dropWhile_other absent, stops]
  cases above using List.reverseRecOn with
  | nil => rfl
  | append_singleton others last =>
      rw [List.reverse_append]
      simp [nameOf]

theorem resolveKeyName_of_absent {location : Location} {wanted : Str} (absent : wanted ∉ location) :
    resolveKeyName location wanted = location.getLast?.getD [] := by
  unfold resolveKeyName
  rw [dropWhile_other fun member => absent (List.mem_reverse.mp member)]
  by_cases root : ROOT_TOKEN = wanted
  · simp [root]
  · simp [root]

/-- The name the code looks up is what the key stands for. -/
theorem resolveKeyName_iff {location : Location} {wanted name : Str} :
    name = resolveKeyName location wanted ↔ KeyStandsFor location wanted name := by
  by_cases member : wanted ∈ location
  · obtain ⟨above, below, rfl, fresh⟩ := exists_last_place member
    rw [resolveKeyName_of_place fresh]
    constructor
    · exact fun same => .inl ⟨above, below, rfl, fresh, same⟩
    · rintro (⟨above', below', split, fresh', same⟩ | ⟨absent, _⟩)
      · rw [same, ← resolveKeyName_of_place fresh', ← split, resolveKeyName_of_place fresh]
      · exact absurd member absent
  · rw [resolveKeyName_of_absent member]
    constructor
    · exact fun same => .inr ⟨member, same⟩
    · rintro (⟨above, below, rfl, _⟩ | ⟨_, same⟩)
      · exact absurd (List.mem_append_right _ List.mem_cons_self) member
      · exact same

section Pieces

/-- Write a separator before every `[@key]`. -/
def separateKeys (text : Str) : Str :=
  Text.replaceAll ITEM_NAME_SUBSCRIPT (SEPARATOR ++ ITEM_NAME_SUBSCRIPT) text

/-- The pieces of a part of a template. -/
def piecesOf (part : Part) : List Str :=
  if part.2 then [ITEM_NAME_SUBSCRIPT] else Text.pieces '/' (separateKeys part.1)

theorem separateKeys_append (first : Str) {c : Char} (border : c = '/' ∨ c = '[') (second : Str) :
    separateKeys (first ++ c :: second) = separateKeys first ++ separateKeys (c :: second) := by
  refine Text.replaceAll_append ?_ first second
  rcases border with rfl | rfl <;> decide

theorem separateKeys_separator (text : Str) :
    separateKeys ('/' :: text) = '/' :: separateKeys text :=
  Text.replaceAll_cons (by decide) text

theorem separateKeys_key (text : Str) :
    separateKeys (ITEM_NAME_SUBSCRIPT ++ text) =
      '/' :: (ITEM_NAME_SUBSCRIPT ++ separateKeys text) :=
  Text.replaceAll_prefix (by decide) text

/-- A template is empty or begins with a character that cuts texts into parts. -/
theorem writeTemplate_cases (parts : List Part) :
    writeTemplate parts = [] ∨ ∃ c rest, writeTemplate parts = c :: rest ∧ (c = '/' ∨ c = '[') := by
  cases parts with
  | nil => exact .inl rfl
  | cons part rest =>
      refine .inr ?_
      unfold writeTemplate
      rw [List.flatMap_cons]
      unfold writePart
      split
      · exact ⟨'[', _, rfl, .inr rfl⟩
      · exact ⟨'/', _, rfl, .inl rfl⟩

/-- What follows a text in a template is separated apart from it. -/
theorem separateKeys_before_template (text : Str) (parts : List Part) :
    separateKeys (text ++ writeTemplate parts) =
      separateKeys text ++ separateKeys (writeTemplate parts) := by
  rcases writeTemplate_cases parts with empty | ⟨c, rest, starts, border⟩
  · rw [empty, List.append_nil]
    exact (List.append_nil _).symm
  · rw [starts]
    exact separateKeys_append text border rest

/-- Once its keys are separated a template begins with a separator. -/
theorem separateKeys_template_cases (parts : List Part) :
    separateKeys (writeTemplate parts) = [] ∨
      ∃ rest, separateKeys (writeTemplate parts) = '/' :: rest := by
  cases parts with
  | nil => exact .inl rfl
  | cons part rest =>
      refine .inr ?_
      obtain ⟨token, keyed⟩ := part
      cases keyed with
      | true => exact ⟨_, separateKeys_key (writeTemplate rest)⟩
      | false => exact ⟨_, separateKeys_separator (token ++ writeTemplate rest)⟩

/-- Separators are all that is added to a token. -/
theorem filter_separateKeys {token : Str} (isToken : IsToken token) :
    (separateKeys token).filter (· ≠ '/') = token :=
  Text.filter_replaceFrom (by decide) isToken.2 0

theorem nul_mem_separateKeys_iff {token : Str} (isToken : IsToken token) :
    Text.NUL ∈ separateKeys token ↔ Text.NUL ∈ token := by
  conv_rhs => rw [← filter_separateKeys isToken]
  rw [List.mem_filter]
  exact (and_iff_left (by decide)).symm

/-- A text without a NUL is read before the template that follows it. -/
theorem parse_before_template {text : Str} (absent : Text.NUL ∉ text) (parts : List Part) :
    parse (text ++ separateKeys (writeTemplate parts)) =
      Text.pieces '/' text ++ parse (separateKeys (writeTemplate parts)) := by
  rw [← parse_of_notMem absent]
  rcases separateKeys_template_cases parts with empty | ⟨rest, starts⟩
  · rw [empty, List.append_nil]
    exact (List.append_nil _).symm
  · rw [starts, parse_append absent, parse_cons_separator]

section Read

variable (rest : List Part)

/-- A template is read part by part as long as there is no NUL in a token it keeps. -/
theorem parse_template_cons (part : Part) (isToken : IsToken part.1)
    (clean : part.2 = false → Text.NUL ∉ part.1) :
    parse (separateKeys (writeTemplate (part :: rest))) =
      piecesOf part ++ parse (separateKeys (writeTemplate rest)) := by
  obtain ⟨token, keyed⟩ := part
  cases keyed with
  | true =>
      have written : writeTemplate ((token, true) :: rest) =
          ITEM_NAME_SUBSCRIPT ++ writeTemplate rest := rfl
      rw [written, separateKeys_key, parse_cons_separator, parse_before_template (by decide)]
      rfl
  | false =>
      have written : writeTemplate ((token, false) :: rest) = '/' :: (token ++ writeTemplate rest) := rfl
      have absent : Text.NUL ∉ separateKeys token :=
        fun inside => clean rfl ((nul_mem_separateKeys_iff isToken).mp inside)
      rw [written, separateKeys_separator, parse_cons_separator, separateKeys_before_template,
        parse_before_template absent]
      rfl

/-- Nothing is read behind a token with a NUL. -/
theorem parse_template_of_nul {token : Str} (isToken : IsToken token) (inside : Text.NUL ∈ token) :
    parse (separateKeys (writeTemplate ((token, false) :: rest))) = parse (separateKeys token) := by
  have written : writeTemplate ((token, false) :: rest) = '/' :: (token ++ writeTemplate rest) := rfl
  rw [written, separateKeys_separator, parse_cons_separator, separateKeys_before_template,
    parse_append_of_mem ((nul_mem_separateKeys_iff isToken).mpr inside)]

end Read

theorem parse_template {parts : List Part} (tokens : ∀ part ∈ parts, IsToken part.1)
    (clean : ∀ part ∈ parts, part.2 = false → Text.NUL ∉ part.1) :
    parse (separateKeys (writeTemplate parts)) = parts.flatMap piecesOf := by
  induction parts with
  | nil => rfl
  | cons part rest ih =>
      obtain ⟨isToken, others⟩ := List.forall_mem_cons.mp tokens
      obtain ⟨cleanPart, cleanRest⟩ := List.forall_mem_cons.mp clean
      rw [parse_template_cons rest part isToken cleanPart, ih others cleanRest, List.flatMap_cons]

/-- The pieces of a token together are the token. -/
theorem flatten_pieces {token : Str} (isToken : IsToken token) :
    (Text.pieces '/' (separateKeys token)).flatten = token := by
  rw [Text.flatten_pieces, filter_separateKeys isToken]

/-- A token is one piece, which is the token, or more. -/
theorem pieces_cases {token : Str} (isToken : IsToken token) :
    Text.pieces '/' (separateKeys token) = [token] ∨
      ∃ first second others, Text.pieces '/' (separateKeys token) = first :: second :: others := by
  have together := flatten_pieces isToken
  cases pieces : Text.pieces '/' (separateKeys token) with
  | nil =>
      rw [pieces] at together
      exact absurd together.symm isToken.1
  | cons first rest =>
      cases rest with
      | nil =>
          rw [pieces, List.flatten_singleton] at together
          exact .inl (congrArg ([·]) together)
      | cons second others => exact .inr ⟨first, second, others, rfl⟩

/-- What is read of a token are its pieces where it has no NUL. -/
theorem parse_token_iff {token : Str} (isToken : IsToken token) :
    parse (separateKeys token) = [token] ↔
      Text.pieces '/' (separateKeys token) = [token] ∧ Text.NUL ∉ token := by
  constructor
  · intro whole
    have clean : Text.NUL ∉ token := nul_notMem_of_mem_parse (whole ▸ List.mem_singleton_self token)
    have absent := fun inside => clean ((nul_mem_separateKeys_iff isToken).mp inside)
    exact ⟨parse_of_notMem absent ▸ whole, clean⟩
  · intro ⟨whole, clean⟩
    have absent := fun inside => clean ((nul_mem_separateKeys_iff isToken).mp inside)
    rw [parse_of_notMem absent, whole]

end Pieces

section Join

/-- Separators are counted by the tokens joined, and by those in them. -/
theorem count_join (tokens : List Str) :
    tokens.length ≤ (join tokens).count '/' ∧
      ((join tokens).count '/' = tokens.length ↔ ∀ token ∈ tokens, '/' ∉ token) := by
  induction tokens with
  | nil => simp [join]
  | cons first rest ih =>
      have unfolded : join (first :: rest) = '/' :: (first ++ join rest) := rfl
      rw [unfolded, List.count_cons_self, List.count_append, List.length_cons,
        List.forall_mem_cons, ← ih.2, ← List.count_eq_zero]
      have atLeast := ih.1
      refine ⟨by omega, fun same => ⟨by omega, by omega⟩, fun ⟨clean, same⟩ => by omega⟩

theorem split_join {names : List Str} (apart : ∀ name ∈ names, '/' ∉ name) :
    Text.split '/' (join names) = [] :: names := by
  have joined : ∀ text ∈ [] :: names, '/' ∉ text :=
    List.forall_mem_cons.mpr ⟨List.not_mem_nil, apart⟩
  exact Text.split_joined joined

/-- Joined tokens determine the tokens, among at least as many texts. -/
theorem join_injective {texts tokens : List Str} (proper : ∀ token ∈ tokens, '/' ∉ token)
    (enough : tokens.length ≤ texts.length) (same : join texts = join tokens) : texts = tokens := by
  have counted := (count_join tokens).2.mpr proper
  obtain ⟨atLeast, exactly⟩ := count_join texts
  rw [same] at atLeast exactly
  have properTexts := exactly.mp (by omega)
  have pieces := split_join properTexts
  rw [same, split_join proper] at pieces
  exact (List.cons_injective pieces).symm

end Join

section Evaluate

/-- The token that a template has in the place of a part. -/
def pieceOf (part : Part) : Str := if part.2 then ITEM_NAME_SUBSCRIPT else part.1

/-- Every token a template keeps is read as one token once the keys have been separated. -/
def KeepsTokens (parts : List Part) : Prop :=
  ∀ part ∈ parts, part.2 = false → parse (separateKeys part.1) = [part.1]

theorem keepsTokens_iff {parts : List Part} (tokens : ∀ part ∈ parts, IsToken part.1) :
    KeepsTokens parts ↔ ∀ part ∈ parts, part.2 = false →
      Text.pieces '/' (separateKeys part.1) = [part.1] ∧ Text.NUL ∉ part.1 :=
  forall₂_congr fun part member => imp_congr_right fun _ => parse_token_iff (tokens part member)

theorem pieces_length {parts : List Part} (tokens : ∀ part ∈ parts, IsToken part.1) :
    parts.length ≤ (parts.flatMap piecesOf).length ∧
      ((parts.flatMap piecesOf).length = parts.length ↔
        ∀ part ∈ parts, part.2 = false → Text.pieces '/' (separateKeys part.1) = [part.1]) := by
  induction parts with
  | nil => exact ⟨le_rfl, fun _ _ impossible => (by cases impossible), fun _ => rfl⟩
  | cons part rest ih =>
      obtain ⟨isToken, others⟩ := List.forall_mem_cons.mp tokens
      obtain ⟨atLeast, exactly⟩ := ih others
      have here : 1 ≤ (piecesOf part).length ∧ ((piecesOf part).length = 1 ↔
          (part.2 = false → Text.pieces '/' (separateKeys part.1) = [part.1])) := by
        unfold piecesOf
        cases part.2 with
        | true => simp
        | false =>
            rw [if_neg Bool.false_ne_true]
            rcases pieces_cases isToken with one | ⟨first, second, others, more⟩
            · simp [one]
            · rw [more]
              simp
      rw [List.flatMap_cons, List.length_append, List.length_cons, List.forall_mem_cons,
        ← exactly, ← here.2]
      have first := here.1
      exact ⟨by omega, fun same => ⟨by omega, by omega⟩, fun ⟨one, same⟩ => by omega⟩

theorem pieces_of_kept {parts : List Part}
    (keeps : ∀ part ∈ parts, part.2 = false → Text.pieces '/' (separateKeys part.1) = [part.1]) :
    parts.flatMap piecesOf = parts.map pieceOf := by
  induction parts with
  | nil => rfl
  | cons part rest ih =>
      obtain ⟨here, others⟩ := List.forall_mem_cons.mp keeps
      rw [List.flatMap_cons, List.map_cons, ih others]
      unfold piecesOf pieceOf
      cases keyed : part.2 with
      | true => rfl
      | false =>
          rw [if_neg Bool.false_ne_true, if_neg Bool.false_ne_true, here keyed]
          rfl

/-- One name for every `[@key]`. -/
def substitute (name token : Str) : Str := if token = ITEM_NAME_SUBSCRIPT then name else token

theorem substituted_iff {parts : List Part} {name : Str} :
    (parts.map pieceOf).map (substitute name) = parts.map Prod.fst ↔
      ∀ part ∈ parts, part.2 = true ∨ part.1 = ITEM_NAME_SUBSCRIPT → part.1 = name := by
  rw [List.map_map, List.map_inj_left]
  refine forall₂_congr fun part _ => ?_
  unfold pieceOf substitute
  rw [Function.comp_apply]
  cases part.2 with
  | true => simp [eq_comm]
  | false =>
      by_cases literal : part.1 = ITEM_NAME_SUBSCRIPT
      · simp [literal, eq_comm]
      · simp [literal]

/-- The tokens of a path that is printed of names are no subscripts. -/
theorem not_subscript_of_printed {location : Location} {tokens : List Str}
    (names : ∀ name ∈ location, IsToken name) (proper : ∀ token ∈ tokens, IsToken token)
    (path : toString location = join tokens) {token : Str} (member : token ∈ tokens) :
    ¬ IsSubscript token := by
  obtain ⟨merged, properMerged, plain, printed⟩ := exists_plain_tokens names
  have joined : ∀ {others : List Str}, (∀ name ∈ others, IsToken name) →
      (∀ name ∈ others, ¬ IsSubscript name) → toString others = join others := by
    intro others properOthers plainOthers
    refine List.flatMap_congr fun name inside => ?_
    exact printName_of_not_subscript (properOthers name inside) (plainOthers name inside)
  have allPlain : ∀ name ∈ merged, ¬ IsSubscript name := by
    cases merged with
    | nil => intro _ impossible; cases impossible
    | cons first rest =>
        refine List.forall_mem_cons.mpr ⟨fun subscript => ?_, plain⟩
        -- The path begins with the separator before its first token.
        obtain ⟨c, others, isCons⟩ := List.exists_cons_of_ne_nil (List.ne_nil_of_mem member)
        have begins : toString (first :: rest) = printName first ++ toString rest := rfl
        rw [printed, path, isCons, printName_of_subscript (properMerged first List.mem_cons_self)
          subscript] at begins
        obtain ⟨_, behind, rfl⟩ : ∃ d behind, first = d :: behind :=
          List.exists_cons_of_ne_nil (properMerged first List.mem_cons_self).1
        have slash : '/' = _ := (List.cons.inj begins).1
        cases subscript
        cases slash
  have sameTexts : join merged = join tokens := by
    rw [← joined properMerged allPlain, printed, path]
  have cut := split_join fun name inside => (properMerged name inside).2
  rw [sameTexts, split_join fun name inside => (proper name inside).2] at cut
  have same : tokens = merged := (List.cons.inj cut).2
  exact allPlain token (same ▸ member)

/-- The first thing read of a token is the beginning of it. -/
theorem prefix_of_read {token first : Str} {rest : List Str} (isToken : IsToken token)
    (read : parse (separateKeys token) = first :: rest) : first <+: token := by
  have together : (parse (separateKeys token)).flatten <+: token := by
    rw [parse_eq, Text.flatten_pieces]
    conv_rhs => rw [← filter_separateKeys isToken]
    exact (Text.c_str_isPrefix _).filter _
  rw [read, List.flatten_cons] at together
  exact (List.prefix_append first _).trans together

/-- The tokens are read from a template with a NUL in a token it keeps only where a token begins
like `[@key]`. -/
theorem subscript_of_read {parts : List Part} {name : Str}
    (tokens : ∀ part ∈ parts, IsToken part.1)
    (kept : ∃ part ∈ parts, part.2 = false ∧ Text.NUL ∈ part.1) (inName : Text.NUL ∈ name)
    (same : (parse (separateKeys (writeTemplate parts))).map (substitute name) =
      parts.map Prod.fst) :
    ∃ part ∈ parts, IsSubscript part.1 := by
  induction parts with
  | nil =>
      obtain ⟨_, impossible, _⟩ := kept
      cases impossible
  | cons part rest ih =>
      obtain ⟨isToken, others⟩ := List.forall_mem_cons.mp tokens
      by_cases here : part.2 = false ∧ Text.NUL ∈ part.1
      · obtain ⟨token, keyed⟩ := part
        obtain ⟨rfl, inside⟩ := here
        rw [parse_template_of_nul rest isToken inside] at same
        cases read : parse (separateKeys token) with
        | nil => rw [read] at same; cases same
        | cons first more =>
            rw [read] at same
            have isFirst : substitute name first = token := (List.cons.inj same).1
            have firstClean : Text.NUL ∉ first :=
              nul_notMem_of_mem_parse (read ▸ List.mem_cons_self)
            have isKey : first = ITEM_NAME_SUBSCRIPT := by
              by_contra differs
              rw [substitute, if_neg differs] at isFirst
              exact firstClean (isFirst ▸ inside)
            obtain ⟨behind, whole⟩ := prefix_of_read isToken read
            refine ⟨_, List.mem_cons_self, ?_⟩
            have begins : token = ITEM_NAME_SUBSCRIPT ++ behind := isKey ▸ whole.symm
            change token.head? = some '['
            rw [begins]
            rfl
      · have cleanHere : part.2 = false → Text.NUL ∉ part.1 := fun keeps inside => here ⟨keeps, inside⟩
        rw [parse_template_cons rest part isToken cleanHere, List.map_append, List.map_cons] at same
        have one : ∃ piece, piecesOf part = [piece] := by
          unfold piecesOf at same ⊢
          cases keyed : part.2 with
          | true => exact ⟨_, rfl⟩
          | false =>
              rw [keyed, if_neg Bool.false_ne_true] at same
              rw [if_neg Bool.false_ne_true]
              rcases pieces_cases isToken with whole | ⟨first, second, more, cut⟩
              · exact ⟨_, whole⟩
              · -- A first piece that is not the token is read as another name than the token.
                have together := flatten_pieces isToken
                have isFirst : substitute name first = part.1 := by
                  rw [cut] at same
                  exact (List.cons.inj same).1
                rw [cut, List.flatten_cons, List.flatten_cons] at together
                have isPiece : second ∈ Text.pieces '/' (separateKeys part.1) := by
                  rw [cut]
                  exact List.mem_cons_of_mem _ List.mem_cons_self
                unfold substitute at isFirst
                split at isFirst
                · exact absurd (isFirst ▸ inName) (cleanHere keyed)
                · rw [isFirst] at together
                  have empty := List.append_right_eq_self.mp together
                  exact absurd (List.append_eq_nil_iff.mp empty).1
                    (isToken_of_mem_pieces isPiece).1
        obtain ⟨piece, isPiece⟩ := one
        rw [isPiece] at same
        have later : ∃ part ∈ rest, part.2 = false ∧ Text.NUL ∈ part.1 := by
          obtain ⟨other, member, holds⟩ := kept
          rcases List.mem_cons.mp member with rfl | inRest
          · exact absurd holds here
          · exact ⟨other, inRest, holds⟩
        obtain ⟨other, member, subscript⟩ := ih others later (List.cons.inj same).2
        exact ⟨other, List.mem_cons_of_mem _ member, subscript⟩

/-- A name the code looks up is of the node's path, or it has no NUL. -/
theorem resolveKeyName_mem_or (location : Location) (wanted : Str) :
    resolveKeyName location wanted ∈ location ∨ Text.NUL ∉ resolveKeyName location wanted := by
  rcases resolveKeyName_iff.mp (rfl : resolveKeyName location wanted = _) with
    ⟨above, below, split, _, same⟩ | ⟨_, same⟩
  · rw [same]
    cases above using List.reverseRecOn with
    | nil => exact .inr (by decide)
    | append_singleton others last =>
        refine .inl ?_
        rw [nameOf_concat, split]
        simp
  · rw [same]
    cases location using List.reverseRecOn with
    | nil => exact .inr List.not_mem_nil
    | append_singleton others last =>
        refine .inl ?_
        rw [List.getLast?_concat]
        exact List.mem_append_right _ (List.mem_singleton_self last)

theorem mem_join {tokens : List Str} {token : Str} (member : token ∈ tokens) {c : Char}
    (inside : c ∈ token) : c ∈ join tokens :=
  List.mem_flatMap.mpr ⟨token, member, List.mem_append_right _ inside⟩

/-- No template with a NUL in a token it keeps evaluates to a path that is printed of names. -/
theorem not_evaluates_of_nul {location : Location} {parts : List Part}
    (names : ∀ name ∈ location, IsToken name) (tokens : ∀ part ∈ parts, IsToken part.1)
    (path : toString location = join (parts.map Prod.fst))
    (kept : ∃ part ∈ parts, part.2 = false ∧ Text.NUL ∈ part.1) {wanted : Str} :
    join ((parse (separateKeys (writeTemplate parts))).map
      (substitute (resolveKeyName location wanted))) ≠ join (parts.map Prod.fst) := by
  intro same
  have proper : ∀ token ∈ parts.map Prod.fst, IsToken token := by
    intro token member
    obtain ⟨part, inParts, rfl⟩ := List.mem_map.mp member
    exact tokens part inParts
  generalize named : resolveKeyName location wanted = name at same
  -- A NUL in what is written comes from the name that is written for the keys.
  have inName : Text.NUL ∈ name := by
    obtain ⟨part, member, _, inside⟩ := kept
    have inJoin := mem_join (List.mem_map_of_mem (f := Prod.fst) member) inside
    rw [← same] at inJoin
    obtain ⟨text, isText, inText⟩ := List.mem_flatMap.mp inJoin
    obtain ⟨token, isRead, rfl⟩ := List.mem_map.mp isText
    have inSubstituted : Text.NUL ∈ substitute name token :=
      (List.mem_append.mp inText).resolve_left (by decide)
    unfold substitute at inSubstituted
    split at inSubstituted
    · exact inSubstituted
    · exact absurd inSubstituted (nul_notMem_of_mem_parse isRead)
  have isName : IsToken name := by
    rcases resolveKeyName_mem_or location wanted with member | absent
    · exact names name (named ▸ member)
    · exact absurd (named ▸ inName) absent
  have written : ∀ text ∈ (parse (separateKeys (writeTemplate parts))).map (substitute name),
      '/' ∉ text := by
    intro text member
    obtain ⟨token, isRead, rfl⟩ := List.mem_map.mp member
    unfold substitute
    split
    · exact isName.2
    · exact (isToken_of_mem_parse isRead).2
  have texts := split_join written
  rw [same, split_join fun token member => (proper token member).2] at texts
  obtain ⟨part, member, subscript⟩ :=
    subscript_of_read tokens kept inName (List.cons.inj texts).2.symm
  exact not_subscript_of_printed names proper path (List.mem_map_of_mem member) subscript

/-- A template of a node's path evaluates back to the path exactly where its tokens stay
whole when the keys are separated, and every token that is read as `[@key]` is the name
that the key behind the last `[@key]` tells. -/
theorem template_evaluates_iff {location : Location} {first : Str} {rest : List Part}
    (tokens : ∀ part ∈ (first, false) :: rest, IsToken part.1)
    (path : toString location = join (first :: rest.map Prod.fst))
    (apart : (∀ part ∈ (first, false) :: rest, part.2 = false → Text.NUL ∉ part.1) ∨
      ∀ name ∈ location, IsToken name) :
    evaluateXPath location (writeTemplate ((first, false) :: rest)) = .ok (toString location) ↔
      KeepsTokens ((first, false) :: rest) ∧ ∀ part ∈ (first, false) :: rest,
        part.2 = true ∨ part.1 = ITEM_NAME_SUBSCRIPT →
          KeyStandsFor location (wantedChild (first :: rest.map pieceOf)) part.1 := by
  have written : evaluateXPath location (writeTemplate ((first, false) :: rest)) =
      .ok (join ((parse (separateKeys (writeTemplate ((first, false) :: rest)))).map
        (substitute (resolveKeyName location
          (wantedChild (parse (separateKeys (writeTemplate ((first, false) :: rest))))))))) := rfl
  have whole : first :: rest.map Prod.fst = ((first, false) :: rest).map Prod.fst := rfl
  rw [written, path, whole, Except.ok.injEq, keepsTokens_iff tokens]
  by_cases kept : ∃ part ∈ (first, false) :: rest, part.2 = false ∧ Text.NUL ∈ part.1
  · obtain ⟨part, member, keeps, inside⟩ := kept
    have names : ∀ name ∈ location, IsToken name :=
      apart.resolve_left fun clean => clean part member keeps inside
    refine iff_of_false (not_evaluates_of_nul names tokens path ⟨part, member, keeps, inside⟩) ?_
    exact fun holds => (holds.1 part member keeps).2 inside
  have clean : ∀ part ∈ (first, false) :: rest, part.2 = false → Text.NUL ∉ part.1 :=
    fun part member keeps inside => kept ⟨part, member, keeps, inside⟩
  rw [parse_template tokens clean]
  generalize named : resolveKeyName location
    (wantedChild (((first, false) :: rest).flatMap piecesOf)) = name
  have slashFree : ∀ token ∈ ((first, false) :: rest).map Prod.fst, '/' ∉ token := by
    intro token member
    obtain ⟨part, inParts, rfl⟩ := List.mem_map.mp member
    exact (tokens part inParts).2
  obtain ⟨atLeast, exactly⟩ := pieces_length tokens
  constructor
  · intro same
    have texts := join_injective slashFree
      (by rw [List.length_map, List.length_map]; exact atLeast) same
    have lengths := congrArg List.length texts
    rw [List.length_map, List.length_map] at lengths
    have keeps := exactly.mp lengths
    rw [pieces_of_kept keeps] at texts named
    refine ⟨fun part member keep => ⟨keeps part member keep, clean part member keep⟩,
      fun part member keyed => resolveKeyName_iff.mp ?_⟩
    exact (substituted_iff.mp texts part member keyed).trans named.symm
  · intro ⟨keeps, names⟩
    rw [pieces_of_kept fun part member keep => (keeps part member keep).1] at named ⊢
    refine congrArg join (substituted_iff.mpr fun part member keyed => ?_)
    exact (resolveKeyName_iff.mpr (names part member keyed)).trans named

end Evaluate

end FlexConfig.XPath

namespace FlexConfig.Sample

open XPath

/-- Two keys in a path are both read as the name before the second. -/
theorem two_keys_misread :
    let node := ["a".toList, "b".toList, "c".toList, "d".toList]
    let template := writeTemplate [("a".toList, false), ("b".toList, true), ("c".toList, true),
      ("d".toList, false)]
    evaluateXPath node template = .ok "/a/c/c/d".toList ∧
      evaluateXPath node template ≠ .ok (XPath.toString node) := by
  decide +kernel

theorem one_key_evaluates :
    evaluateXPath ["a".toList, "b".toList, "c".toList]
        (writeTemplate [("a".toList, false), ("b".toList, true), ("c".toList, false)]) =
          .ok (XPath.toString ["a".toList, "b".toList, "c".toList]) ↔
      KeepsTokens [("a".toList, false), ("b".toList, true), ("c".toList, false)] ∧
        ∀ part ∈ [("a".toList, false), ("b".toList, true), ("c".toList, false)],
          part.2 = true ∨ part.1 = ITEM_NAME_SUBSCRIPT →
            KeyStandsFor ["a".toList, "b".toList, "c".toList]
              (wantedChild ("a".toList ::
                [("b".toList, true), ("c".toList, false)].map pieceOf)) part.1 :=
  template_evaluates_iff (by unfold IsToken; decide) (by decide +kernel) (.inl (by decide))

end FlexConfig.Sample
