import FlexConfig.Foundation.Text

/-! # Parsing expression grammars

Expressions over a type of rules, and what they match: an expression tried at a
text fails or leaves a rest of the text. Choices are ordered and a choice made is
not taken back. White space is skipped behind every literal and behind every
token. A grammar carries a ranking of its rules that excludes left recursion.

The relation `Matches` is the meaning of an expression without any actions. It is
deterministic (`Matches.unique`), and a rule that matches consumes text
(`Matches.consumes`).
-/

namespace Peg

/-- What stands inside a token boundary: characters without rules and without
skipped white space. -/
inductive Lexeme where
  | literal (text : Str)
  | dictionary (words : List Str)
  | characters (ranges : List (Char × Char)) (negated : Bool)
  | seq (first second : Lexeme)
  | choice (first second : Lexeme)
  | optional (body : Lexeme)
  | many (body : Lexeme)

/-- What is left of a text behind a prefix. -/
def stripPrefix (text s : Str) : Option Str :=
  if text.isPrefixOf s then some (s.drop text.length) else none

/-- The length of the longest of some words that a text begins with. -/
def longestMatch (words : List Str) (s : Str) : Nat :=
  ((words.filter fun word => word.isPrefixOf s).map List.length).foldl max 0

/-- Go on with a body while it matches; the first argument bounds the rounds. -/
def repeated (strip : Str → Option Str) : Nat → Str → Str
  | 0, s => s
  | rounds + 1, s =>
    match strip s with
    | none => s
    | some rest => repeated strip rounds rest

/-- What a lexeme leaves of a text. -/
def Lexeme.strip : Lexeme → Str → Option Str
  | literal text, s => stripPrefix text s
  | dictionary words, s =>
    if longestMatch words s = 0 then none else some (s.drop (longestMatch words s))
  | characters _ _, [] => none
  | characters ranges negated, c :: rest =>
    if (ranges.any fun range => range.1 ≤ c && c ≤ range.2) = negated then none else some rest
  | seq first second, s => (first.strip s).bind second.strip
  | choice first second, s => (first.strip s).or (second.strip s)
  | optional body, s => some ((body.strip s).getD s)
  | many body, s => some (repeated body.strip s.length s)

/-- Whether a lexeme that matches has consumed a character. -/
def Lexeme.consumes : Lexeme → Bool
  | literal text => text ≠ []
  | dictionary _ | characters _ _ => true
  | seq first second => first.consumes || second.consumes
  | choice first second => first.consumes && second.consumes
  | optional _ | many _ => false

/-- Expressions. An infix expression is a chain of operands and operators of one
level of precedence, associating to the left; it carries the rule it belongs to. -/
inductive Expr (R : Type) where
  | literal (text : Str)
  | token (lexeme : Lexeme)
  | seq (first second : Expr R)
  | choice (first second : Expr R)
  | rep (min : Nat) (max : Option Nat) (body : Expr R)
  | rule (name : R)
  | infixLeft (name : R) (atom operator : Expr R)

namespace Expr

variable {R : Type}

instance : Append (Expr R) := ⟨seq⟩

instance : OrOp (Expr R) := ⟨choice⟩

/-- A literal. -/
def lit (text : String) : Expr R := literal text.toList

def optional (body : Expr R) : Expr R := rep 0 (some 1) body

/-- Whether an expression that matches has consumed a character, when every rule
does. -/
def consumes : Expr R → Bool
  | literal text => text ≠ []
  | token lexeme => lexeme.consumes
  | seq first second => first.consumes || second.consumes
  | choice first second => first.consumes && second.consumes
  | rep min _ body => 0 < min && body.consumes
  | rule _ => true
  | infixLeft _ atom _ => atom.consumes

/-- The rules an expression tries before it has consumed anything rank below
`bound`, those it tries later below `height`; what is repeated consumes. -/
def guarded (rank : R → Nat) (height : Nat) : (bound : Nat) → Expr R → Bool
  | _, literal _ | _, token _ => true
  | bound, seq first second =>
    first.guarded rank height bound &&
      second.guarded rank height (bif first.consumes then height else bound)
  | bound, choice first second =>
    first.guarded rank height bound && second.guarded rank height bound
  | bound, rep _ _ body =>
    body.consumes && body.guarded rank height bound && body.guarded rank height height
  | bound, rule name => rank name < bound
  | bound, infixLeft _ atom operator =>
    atom.consumes && operator.consumes && atom.guarded rank height bound &&
      atom.guarded rank height height && operator.guarded rank height height

def size : Expr R → Nat
  | literal _ | token _ | rule _ => 1
  | seq first second | choice first second => first.size + second.size + 1
  | rep _ _ body => body.size + 1
  | infixLeft _ atom operator => atom.size + operator.size + 2

end Expr

/-- A grammar: the body of every rule, and the characters that are white space.
Every rule consumes text and leads only to rules of lower rank before it does. -/
structure Grammar (R : Type) where
  body : R → Expr R
  isSpace : Char → Bool
  rank : R → Nat
  height : Nat
  width : Nat
  rank_lt : ∀ name, rank name < height
  body_consumes : ∀ name, (body name).consumes
  body_guarded : ∀ name, (body name).guarded rank height (rank name)
  body_size : ∀ name, (body name).size < width

section Meaning

variable {R : Type} (g : Grammar R)

/-- Skip white space. -/
def Grammar.skip (s : Str) : Str := s.dropWhile g.isSpace

/-- What a literal leaves of a text. -/
def Grammar.literalRest (text s : Str) : Option Str := (stripPrefix text s).map g.skip

/-- What a token leaves of a text. -/
def Grammar.tokenRest (lexeme : Lexeme) (s : Str) : Option Str := (lexeme.strip s).map g.skip

/-- What is tried at a text: an expression, or the operators and operands that
follow the first operand of an infix expression. -/
inductive Goal (R : Type) where
  | parse (expr : Expr R)
  | climb (atom operator : Expr R)

/-- What a goal leaves of a text, nothing where it fails. -/
inductive Matches : Goal R → Str → Option Str → Prop where
  | literal {text s : Str} : Matches (.parse (.literal text)) s (g.literalRest text s)
  | token {lexeme : Lexeme} {s : Str} :
      Matches (.parse (.token lexeme)) s (g.tokenRest lexeme s)
  | seq {first second : Expr R} {s t : Str} {result : Option Str} :
      Matches (.parse first) s (some t) → Matches (.parse second) t result →
        Matches (.parse (.seq first second)) s result
  | seq_fails {first second : Expr R} {s : Str} :
      Matches (.parse first) s none → Matches (.parse (.seq first second)) s none
  | first {first second : Expr R} {s t : Str} :
      Matches (.parse first) s (some t) → Matches (.parse (.choice first second)) s (some t)
  | second {first second : Expr R} {s : Str} {result : Option Str} :
      Matches (.parse first) s none → Matches (.parse second) s result →
        Matches (.parse (.choice first second)) s result
  | needed {min : Nat} {max : Option Nat} {body : Expr R} {s t : Str} {result : Option Str} :
      Matches (.parse body) s (some t) →
        Matches (.parse (.rep min (max.map Nat.pred) body)) t result →
          Matches (.parse (.rep (min + 1) max body)) s result
  | too_few {min : Nat} {max : Option Nat} {body : Expr R} {s : Str} :
      Matches (.parse body) s none → Matches (.parse (.rep (min + 1) max body)) s none
  | full {body : Expr R} {s : Str} : Matches (.parse (.rep 0 (some 0) body)) s (some s)
  | more {max : Option Nat} {body : Expr R} {s t : Str} {result : Option Str} :
      max ≠ some 0 → Matches (.parse body) s (some t) →
        Matches (.parse (.rep 0 (max.map Nat.pred) body)) t result →
          Matches (.parse (.rep 0 max body)) s result
  | enough {max : Option Nat} {body : Expr R} {s : Str} :
      max ≠ some 0 → Matches (.parse body) s none →
        Matches (.parse (.rep 0 max body)) s (some s)
  | rule {name : R} {s : Str} {result : Option Str} :
      Matches (.parse (g.body name)) s result → Matches (.parse (.rule name)) s result
  | chain {name : R} {atom operator : Expr R} {s t : Str} {result : Option Str} :
      Matches (.parse atom) s (some t) → Matches (.climb atom operator) t result →
        Matches (.parse (.infixLeft name atom operator)) s result
  | no_operand {name : R} {atom operator : Expr R} {s : Str} :
      Matches (.parse atom) s none → Matches (.parse (.infixLeft name atom operator)) s none
  | at_end {atom operator : Expr R} : Matches (.climb atom operator) [] (some [])
  | no_operator {atom operator : Expr R} {s : Str} :
      s ≠ [] → Matches (.parse operator) s none → Matches (.climb atom operator) s (some s)
  | operand_missing {atom operator : Expr R} {s t : Str} :
      s ≠ [] → Matches (.parse operator) s (some t) → Matches (.parse atom) t none →
        Matches (.climb atom operator) s none
  | climb {atom operator : Expr R} {s t u : Str} {result : Option Str} :
      s ≠ [] → Matches (.parse operator) s (some t) → Matches (.parse atom) t (some u) →
        Matches (.climb atom operator) u result → Matches (.climb atom operator) s result

end Meaning

variable {R : Type} {g : Grammar R}

/-- A goal has one result at a text. -/
theorem Matches.unique {goal : Goal R} {s : Str} {left right : Option Str}
    (matched : Matches g goal s left) (other : Matches g goal s right) : left = right := by
  induction matched generalizing right with
  | literal | token | full | at_end => cases other <;> first | rfl | contradiction
  | seq _ _ firstIh secondIh =>
      cases other with
      | seq first second =>
          cases firstIh first
          exact secondIh second
      | seq_fails first => cases firstIh first
  | seq_fails _ firstIh =>
      cases other with
      | seq first _ => cases firstIh first
      | seq_fails _ => rfl
  | first _ firstIh =>
      cases other with
      | first first => exact firstIh first
      | second first _ => cases firstIh first
  | second _ _ firstIh secondIh =>
      cases other with
      | first first => cases firstIh first
      | second _ second => exact secondIh second
  | needed _ _ bodyIh restIh =>
      cases other with
      | needed body rest =>
          cases bodyIh body
          exact restIh rest
      | too_few body => cases bodyIh body
  | too_few _ bodyIh =>
      cases other with
      | needed body _ => cases bodyIh body
      | too_few _ => rfl
  | more bounded _ _ bodyIh restIh =>
      cases other with
      | full => exact absurd rfl bounded
      | more _ body rest =>
          cases bodyIh body
          exact restIh rest
      | enough _ body => cases bodyIh body
  | enough bounded _ bodyIh =>
      cases other with
      | full => exact absurd rfl bounded
      | more _ body _ => cases bodyIh body
      | enough _ _ => rfl
  | rule _ ih =>
      cases other with
      | rule body => exact ih body
  | chain _ _ atomIh climbIh =>
      cases other with
      | chain atom climb =>
          cases atomIh atom
          exact climbIh climb
      | no_operand atom => cases atomIh atom
  | no_operand _ atomIh =>
      cases other with
      | chain atom _ => cases atomIh atom
      | no_operand _ => rfl
  | no_operator nonempty _ operatorIh =>
      cases other with
      | at_end => exact absurd rfl nonempty
      | no_operator _ _ => rfl
      | operand_missing _ operator _ => cases operatorIh operator
      | climb _ operator _ _ => cases operatorIh operator
  | operand_missing nonempty _ _ operatorIh atomIh =>
      cases other with
      | at_end => exact absurd rfl nonempty
      | no_operator _ operator => cases operatorIh operator
      | operand_missing _ _ _ => rfl
      | climb _ operator atom _ =>
          cases operatorIh operator
          cases atomIh atom
  | climb nonempty _ _ _ operatorIh atomIh climbIh =>
      cases other with
      | at_end => exact absurd rfl nonempty
      | no_operator _ operator => cases operatorIh operator
      | operand_missing _ operator atom =>
          cases operatorIh operator
          cases atomIh atom
      | climb _ operator atom climb =>
          cases operatorIh operator
          cases atomIh atom
          exact climbIh climb

theorem stripPrefix_eq_some {text s rest : Str} :
    stripPrefix text s = some rest ↔ s = text ++ rest := by
  unfold stripPrefix
  split
  case isTrue isPrefix =>
    obtain ⟨tail, rfl⟩ := List.isPrefixOf_iff_prefix.mp isPrefix
    simp
  case isFalse noPrefix =>
    refine ⟨fun impossible => (by cases impossible), fun split => absurd ?_ noPrefix⟩
    exact List.isPrefixOf_iff_prefix.mpr ⟨rest, split.symm⟩

theorem longestMatch_le (words : List Str) (s : Str) : longestMatch words s ≤ s.length := by
  have bounded : ∀ lengths : List Nat, ∀ start, start ≤ s.length → (∀ n ∈ lengths, n ≤ s.length) →
      lengths.foldl max start ≤ s.length := by
    intro lengths
    induction lengths with
    | nil => exact fun _ le _ => le
    | cons n rest ih =>
        intro start le all
        obtain ⟨head, tail⟩ := List.forall_mem_cons.mp all
        exact ih _ (max_le le head) tail
  refine bounded _ 0 (Nat.zero_le _) ?_
  intro n member
  obtain ⟨word, kept, rfl⟩ := List.mem_map.mp member
  exact (List.isPrefixOf_iff_prefix.mp (List.mem_filter.mp kept).2).length_le

theorem repeated_length {strip : Str → Option Str}
    (shorter : ∀ s rest, strip s = some rest → rest.length ≤ s.length) (rounds : Nat) (s : Str) :
    (repeated strip rounds s).length ≤ s.length := by
  induction rounds generalizing s with
  | zero => exact le_rfl
  | succ rounds ih =>
      unfold repeated
      split
      · exact le_rfl
      · next rest stripped => exact (ih rest).trans (shorter s rest stripped)

/-- A lexeme leaves no longer text, and a shorter one where it consumes. -/
theorem Lexeme.strip_length {lexeme : Lexeme} {s rest : Str} (stripped : lexeme.strip s = some rest) :
    rest.length ≤ s.length ∧ (lexeme.consumes → rest.length < s.length) := by
  induction lexeme generalizing s rest with
  | literal text =>
      rw [Lexeme.strip, stripPrefix_eq_some] at stripped
      rw [stripped, List.length_append, Lexeme.consumes, decide_eq_true_iff]
      refine ⟨Nat.le_add_left _ _, fun nonempty => ?_⟩
      have := List.length_pos_of_ne_nil nonempty
      omega
  | dictionary words =>
      rw [Lexeme.strip] at stripped
      split at stripped
      · cases stripped
      · next positive =>
        cases stripped
        have := longestMatch_le words s
        rw [List.length_drop]
        omega
  | characters ranges negated =>
      cases s with
      | nil => cases stripped
      | cons c tail =>
          rw [Lexeme.strip] at stripped
          split at stripped
          · cases stripped
          · cases stripped
            simp
  | seq first second firstIh secondIh =>
      obtain ⟨middle, one, two⟩ := Option.bind_eq_some_iff.mp stripped
      obtain ⟨firstLe, firstLt⟩ := firstIh one
      obtain ⟨secondLe, secondLt⟩ := secondIh two
      refine ⟨secondLe.trans firstLe, fun consumes => ?_⟩
      rcases (Bool.or_eq_true _ _).mp consumes with inFirst | inSecond
      · exact secondLe.trans_lt (firstLt inFirst)
      · exact (secondLt inSecond).trans_le firstLe
  | choice first second firstIh secondIh =>
      rw [Lexeme.consumes, Bool.and_eq_true]
      rcases Option.or_eq_some_iff.mp stripped with one | ⟨_, two⟩
      · exact ⟨(firstIh one).1, fun consumes => (firstIh one).2 consumes.1⟩
      · exact ⟨(secondIh two).1, fun consumes => (secondIh two).2 consumes.2⟩
  | optional body ih =>
      refine ⟨?_, fun impossible => (by cases impossible)⟩
      rw [Lexeme.strip, Option.some.injEq] at stripped
      cases inner : body.strip s with
      | none =>
          rw [← stripped, inner]
          exact le_rfl
      | some t =>
          rw [← stripped, inner]
          exact (ih inner).1
  | many body ih =>
      refine ⟨?_, fun impossible => (by cases impossible)⟩
      cases stripped
      exact repeated_length (fun _ _ one => (ih one).1) _ s

theorem Grammar.skip_length (s : Str) : (g.skip s).length ≤ s.length :=
  (List.dropWhile_suffix _).length_le

theorem Grammar.literalRest_length {text s rest : Str} (left : g.literalRest text s = some rest) :
    rest.length ≤ s.length ∧ (text ≠ [] → rest.length < s.length) := by
  obtain ⟨tail, stripped, rfl⟩ := Option.map_eq_some_iff.mp left
  have skipped := g.skip_length tail
  rw [stripPrefix_eq_some] at stripped
  rw [stripped, List.length_append]
  refine ⟨by omega, fun nonempty => ?_⟩
  have := List.length_pos_of_ne_nil nonempty
  omega

theorem Grammar.tokenRest_length {lexeme : Lexeme} {s rest : Str}
    (left : g.tokenRest lexeme s = some rest) :
    rest.length ≤ s.length ∧ (lexeme.consumes → rest.length < s.length) := by
  obtain ⟨tail, stripped, rfl⟩ := Option.map_eq_some_iff.mp left
  obtain ⟨le, lt⟩ := Lexeme.strip_length stripped
  have skipped := g.skip_length tail
  exact ⟨skipped.trans le, fun consumes => skipped.trans_lt (lt consumes)⟩

/-- Whether a goal that matches has consumed a character. -/
def Goal.consumes : Goal R → Bool
  | parse expr => expr.consumes
  | climb _ _ => false

/-- A goal leaves no longer text, and a shorter one where it consumes. -/
theorem Matches.length {goal : Goal R} {s rest : Str} (matched : Matches g goal s (some rest)) :
    rest.length ≤ s.length ∧ (goal.consumes → rest.length < s.length) := by
  generalize same : some rest = result at matched
  induction matched generalizing rest with
  | literal =>
      obtain ⟨le, lt⟩ := g.literalRest_length same.symm
      exact ⟨le, fun consumes => lt (of_decide_eq_true consumes)⟩
  | token => exact g.tokenRest_length same.symm
  | seq _ _ firstIh secondIh =>
      obtain ⟨firstLe, firstLt⟩ := firstIh rfl
      obtain ⟨secondLe, secondLt⟩ := secondIh same
      refine ⟨secondLe.trans firstLe, fun consumes => ?_⟩
      rcases (Bool.or_eq_true _ _).mp consumes with inFirst | inSecond
      · exact secondLe.trans_lt (firstLt inFirst)
      · exact (secondLt inSecond).trans_le firstLe
  | first _ firstIh =>
      obtain ⟨le, lt⟩ := firstIh same
      exact ⟨le, fun consumes => lt ((Bool.and_eq_true _ _).mp consumes).1⟩
  | second _ _ _ secondIh =>
      obtain ⟨le, lt⟩ := secondIh same
      exact ⟨le, fun consumes => lt ((Bool.and_eq_true _ _).mp consumes).2⟩
  | needed _ _ bodyIh restIh =>
      obtain ⟨bodyLe, bodyLt⟩ := bodyIh rfl
      obtain ⟨restLe, _⟩ := restIh same
      refine ⟨restLe.trans bodyLe, fun consumes => restLe.trans_lt (bodyLt ?_)⟩
      simpa [Goal.consumes, Expr.consumes] using consumes
  | more _ _ _ bodyIh restIh =>
      refine ⟨(restIh same).1.trans (bodyIh rfl).1, fun consumes => ?_⟩
      simp [Goal.consumes, Expr.consumes] at consumes
  | full | enough =>
      cases same
      refine ⟨le_rfl, fun consumes => ?_⟩
      simp [Goal.consumes, Expr.consumes] at consumes
  | @rule name _ _ _ ih =>
      obtain ⟨le, lt⟩ := ih same
      exact ⟨le, fun _ => lt (g.body_consumes name)⟩
  | chain _ _ atomIh climbIh =>
      obtain ⟨atomLe, atomLt⟩ := atomIh rfl
      obtain ⟨climbLe, _⟩ := climbIh same
      exact ⟨climbLe.trans atomLe, fun consumes => climbLe.trans_lt (atomLt consumes)⟩
  | at_end | no_operator =>
      cases same
      exact ⟨le_rfl, fun impossible => (by cases impossible)⟩
  | climb _ _ _ _ operatorIh atomIh climbIh =>
      refine ⟨(climbIh same).1.trans ((atomIh rfl).1.trans (operatorIh rfl).1), ?_⟩
      exact fun impossible => by cases impossible
  | seq_fails | too_few | no_operand | operand_missing => cases same

end Peg
