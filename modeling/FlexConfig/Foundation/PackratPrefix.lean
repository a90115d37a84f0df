import FlexConfig.Foundation.PackratReading

/-! # Texts that begin with a known word

An expression rejects a word when it fails on every text that begins with the word, and
elects a rule when it tries the rule there after rejections only. Both are computed, so that
which alternative of a choice reads a text can be decided from its first word.
-/

namespace Peg

section Rejection

/-- Whether two texts differ where they both have a character. -/
def clash : Str → Str → Bool
  | c :: text, d :: word => if c = d then clash text word else true
  | [], _ | _, [] => false

theorem stripPrefix_of_clash {text word : Str} (clashes : clash text word = true) (rest : Str) :
    stripPrefix text (word ++ rest) = none := by
  refine Option.eq_none_iff_forall_ne_some.mpr fun left stripped => ?_
  rw [stripPrefix_eq_some] at stripped
  induction text generalizing word with
  | nil => cases clashes
  | cons c text ih =>
      cases word with
      | nil => cases clashes
      | cons d word =>
          obtain ⟨same, others⟩ := List.cons.inj stripped
          rw [clash, if_pos same.symm] at clashes
          exact ih clashes others

/-- Whether a lexeme fails on every text that begins with a word. -/
def Lexeme.rejects : Lexeme → Str → Bool
  | literal text, word => clash text word
  | dictionary words, word => words.all fun text => clash text word
  | characters _ _, [] => false
  | characters ranges negated, c :: _ =>
    (ranges.any fun range => range.1 ≤ c && c ≤ range.2) = negated
  | seq (optional first) second, word => first.rejects word && second.rejects word
  | seq first _, word => first.rejects word
  | choice first second, word => first.rejects word && second.rejects word
  | optional _, _ | many _, _ => false

theorem Lexeme.strip_of_rejects : ∀ {lexeme : Lexeme} {word : Str},
    lexeme.rejects word = true → ∀ rest, lexeme.strip (word ++ rest) = none
  | literal text, word, rejected, rest => stripPrefix_of_clash rejected rest
  | dictionary words, word, rejected, rest => by
      have nothing : (words.filter fun text => text.isPrefixOf (word ++ rest)) = [] := by
        refine List.filter_eq_nil_iff.mpr fun text member prefixed => ?_
        have fails := stripPrefix_of_clash (List.all_eq_true.mp rejected text member) rest
        rw [stripPrefix, if_pos prefixed] at fails
        cases fails
      unfold Lexeme.strip longestMatch
      rw [nothing]
      rfl
  | characters ranges negated, c :: word, rejected, rest => if_pos (of_decide_eq_true rejected)
  | seq first second, word, rejected, rest => by
      unfold Lexeme.strip
      cases first with
      | optional body =>
          obtain ⟨bodyRejects, secondRejects⟩ := (Bool.and_eq_true _ _).mp rejected
          rw [Lexeme.strip, strip_of_rejects bodyRejects rest]
          exact strip_of_rejects secondRejects rest
      | literal | dictionary | characters | seq | choice | many =>
          rw [strip_of_rejects (by exact rejected) rest]
          rfl
  | choice first second, word, rejected, rest => by
      obtain ⟨firstRejects, secondRejects⟩ := (Bool.and_eq_true _ _).mp rejected
      unfold Lexeme.strip
      rw [strip_of_rejects firstRejects rest, strip_of_rejects secondRejects rest]
      rfl

variable {R : Type} (g : Grammar R)

/-- Whether an expression fails on every text that begins with a word, seen within some depth
and before any rule in it has matched. -/
def Grammar.rejects : Nat → Expr R → Str → Bool
  | 0, _, _ => false
  | _ + 1, .literal text, word => clash text word
  | _ + 1, .token lexeme, word => lexeme.rejects word
  | depth + 1, .seq first second, word =>
    rejects depth first word ||
      match first with
      | .literal text =>
        match stripPrefix text word with
        | some (c :: tail) => !g.isSpace c && rejects depth second (c :: tail)
        | _ => false
      | _ => false
  | depth + 1, .choice first second, word => rejects depth first word && rejects depth second word
  | depth + 1, .rule name, word => rejects depth (g.body name) word
  | _ + 1, .rep _ _ _, _ | _ + 1, .infixLeft _ _ _, _ => false

variable {g}

theorem Grammar.skip_cons {c : Char} (solid : g.isSpace c = false) (rest : Str) :
    g.skip (c :: rest) = c :: rest :=
  List.dropWhile_cons_of_neg (by rw [solid]; exact Bool.false_ne_true)

theorem FailsAt.of_rejects {depth : Nat} {expr : Expr R} {word : Str}
    (rejected : g.rejects depth expr word = true) (rest : Str) : FailsAt g expr (word ++ rest) := by
  induction depth generalizing expr word with
  | zero => cases rejected
  | succ depth ih =>
      cases expr with
      | literal text =>
          refine .literal ?_
          rw [Grammar.literalRest, stripPrefix_of_clash rejected rest]
          rfl
      | token lexeme => exact .token (Lexeme.strip_of_rejects rejected rest)
      | seq first second =>
          rcases (Bool.or_eq_true _ _).mp rejected with here | behind
          · exact .seq (ih here)
          · split at behind
            · next text =>
              split at behind
              · next c tail stripped =>
                obtain ⟨solid, rejects⟩ := (Bool.and_eq_true _ _).mp behind
                rw [stripPrefix_eq_some] at stripped
                rw [stripped, List.append_assoc]
                have read : g.literalRest text (text ++ (c :: tail ++ rest)) =
                    some (c :: tail ++ rest) := by
                  rw [Grammar.literalRest, stripPrefix_eq_some.mpr rfl, Option.map_some,
                    List.cons_append, Grammar.skip_cons (by simpa using solid)]
                exact .behind read (ih rejects)
              · cases behind
            · cases behind
      | choice first second =>
          obtain ⟨firstRejects, secondRejects⟩ := (Bool.and_eq_true _ _).mp rejected
          exact .choice (ih firstRejects) (ih secondRejects)
      | rule name => exact .rule (ih rejected)
      | rep | infixLeft => cases rejected

end Rejection

section Election

variable {R : Type} [DecidableEq R] {g : Grammar R}

variable (g) in
/-- Whether a choice comes to a rule on every text that begins with a word. -/
def Grammar.elects (depth : Nat) (name : R) : Expr R → Str → Bool
  | .choice first second, word =>
    elects depth name first word || g.rejects depth first word && elects depth name second word
  | .rule other, _ => other = name
  | _, _ => false

theorem Reads.of_elects {V E ε : Type} {actions : Actions R V (List E) ε} {depth : Nat} {name : R}
    {expr : Expr R} {word rest : Str} {parsed : Parsed V} {log : List E}
    (elected : g.elects depth name expr word = true)
    (reads : Reads actions g (.rule name) (word ++ rest) parsed log) :
    Reads actions g expr (word ++ rest) parsed log := by
  induction expr with
  | choice first second firstIh secondIh =>
      rcases (Bool.or_eq_true _ _).mp elected with here | there
      · exact (firstIh here).first
      · obtain ⟨rejected, elected⟩ := (Bool.and_eq_true _ _).mp there
        exact .second (.of_rejects rejected rest) (secondIh elected)
  | rule other =>
      cases of_decide_eq_true elected
      exact reads
  | literal | token | seq | rep | infixLeft => cases elected

end Election

end Peg
