import FlexConfig.Constraint.Written

/-! # What written constraints evaluate to

The parser reads a written constraint as it is written: its operands have the values of
the logic, and what is noted are the comparisons and `must`s in their order.
-/

namespace FlexConfig.Constraint

open Peg Procedure

variable {checker : ConstraintChecker} {node : Location}

section Rules

variable {s t : Str} {name : Rule} {values : List Any} {tokens : List Str} {log : List Reading}

theorem Word.begins {text : String} (word : Word text s t) : ∃ rest, s = text.toList ++ rest := by
  obtain ⟨rest, stripped, _⟩ := Option.map_eq_some_iff.mp word
  exact ⟨rest, stripPrefix_eq_some.mp stripped⟩

theorem reads_word {text : String} (word : Word text s t) :
    Reads (readingActions checker node) grammar (Expr.lit text) s ⟨t, [], []⟩ [] :=
  reads_literal word

theorem reads_tokenAt {lexeme : Lexeme} {content : Str} (token : TokenAt lexeme content s t) :
    Reads (readingActions checker node) grammar (.token lexeme) s ⟨t, [], [content]⟩ [] := by
  obtain ⟨rest, stripped, rfl, rfl⟩ := token
  exact reads_token stripped

/-- A rule of which nothing is read has the first value in it. -/
theorem reads_passed {value : Any} (unread : readAs checker node name = none)
    (reads : Reads (readingActions checker node) grammar (Rule.body name) s
      ⟨t, value :: values, tokens⟩ log) :
    Reads (readingActions checker node) grammar (.rule name) s ⟨t, [value], []⟩ log := by
  have reduced : ∀ user, (readingActions checker node).reduce name
      ⟨value :: values, tokens, consumed s t⟩ user = .ok value (user ++ []) := by
    intro user
    unfold Actions.reduce
    rw [readingActions_action, unread]
    simp [pure, EStateM.pure]
  have ruled : Reads (readingActions checker node) grammar (.rule name) s ⟨t, [value], []⟩
      (log ++ []) := Reads.rule reads reduced
  rw [List.append_nil] at ruled
  exact ruled

/-- A rule of which something is read has the value read. -/
theorem reads_read {read : SemanticValues Any → Any × List Reading} {value : Any}
    {more : List Reading} (isRead : readAs checker node name = some read)
    (reads : Reads (readingActions checker node) grammar (Rule.body name) s ⟨t, values, tokens⟩ log)
    (has : read ⟨values, tokens, consumed s t⟩ = (value, more)) :
    Reads (readingActions checker node) grammar (.rule name) s ⟨t, [value], []⟩ (log ++ more) :=
  Reads.rule reads fun user => by
    rw [readingActions_reduce checker node isRead, has]

/-- White space apart, a word and what is read behind it. -/
theorem reads_behind {text : String} {expr : Expr Rule} {a : Str} (first : Word text s a)
    (reads : Reads (readingActions checker node) grammar expr a ⟨t, values, tokens⟩ log) :
    Reads (readingActions checker node) grammar (Expr.lit text ++ expr) s ⟨t, values, tokens⟩ log :=
  (reads_word first).seq reads

/-- What is read, and a word behind it. -/
theorem reads_before {text : String} {expr : Expr Rule} {a : Str}
    (reads : Reads (readingActions checker node) grammar expr s ⟨a, values, tokens⟩ log)
    (last : Word text a t) :
    Reads (readingActions checker node) grammar (expr ++ Expr.lit text) s ⟨t, values, tokens⟩
      log := by
  have whole := reads.seq (reads_word last)
  unfold Parsed.append at whole
  rw [List.append_nil, List.append_nil, List.append_nil] at whole
  exact whole

theorem reads_callOf {text : String} {argument : Expr Rule} {a b c : Str} (first : Word text s a)
    (opening : Word "(" a b)
    (reads : Reads (readingActions checker node) grammar argument b ⟨c, values, tokens⟩ log)
    (closing : Word ")" c t) :
    Reads (readingActions checker node) grammar (Rule.callOf text argument) s ⟨t, values, tokens⟩
      log :=
  reads_before ((reads_before (reads_word first) opening).seq reads) closing

theorem reads_string {content : Str} (quoted : Quoted content s t) :
    Reads (readingActions checker node) grammar (.rule .STRING) s
      ⟨t, [.string (Trim content)], []⟩ [] := by
  obtain ⟨a, b, opening, token, closing⟩ := quoted
  have read : Reads (readingActions checker node) grammar (Rule.body .STRING) s
      ⟨t, [], [content]⟩ [] := reads_before ((reads_word opening).seq (reads_tokenAt token)) closing
  exact reads_read rfl read rfl

end Rules

section Calls

variable {s t : Str} {value : Any}

theorem noted_of_toOption {default : Any} {answer : Answer Any}
    (has : answer.toOption = some value) : noted default answer = (value, []) := by
  cases answer with
  | ok result =>
      cases has
      rfl
  | error fault => cases has

theorem reads_argument {argument : PathArgument} (spelled : argument.Spelled s t)
    (has : argument.value checker node = some value) :
    Reads (readingActions checker node) grammar (.rule .STRING ||| .rule .REFERENCE) s
      ⟨t, [value], []⟩ [] := by
  cases argument with
  | string content =>
      cases has
      exact (reads_string spelled).first
  | reference =>
      obtain ⟨rest, stripped, rfl⟩ : ∃ rest, s = "@".toList ++ rest ∧ t = grammar.skip rest := by
        obtain ⟨rest, stripped, _, left⟩ := spelled
        exact ⟨rest, stripPrefix_eq_some.mp stripped, left⟩
      have token : Reads (readingActions checker node) grammar (Rule.body .REFERENCE) s
          ⟨grammar.skip rest, [], ["@".toList]⟩ [] := reads_tokenAt spelled
      have noString : grammar.rejects 5 (.rule .STRING) "@".toList = true := by decide
      rw [stripped] at token ⊢
      exact .second (.of_rejects noString rest) (reads_read rfl token (noted_of_toOption has))

/-- Two strings between the brackets of a function. -/
theorem reads_callOfStrings {text : String} {first second : Str} {a b c d e : Str}
    (word : Word text s a) (opening : Word "(" a b) (one : Quoted first b c)
    (comma : Word "," c d) (two : Quoted second d e) (closing : Word ")" e t) :
    Reads (readingActions checker node) grammar (Rule.callOfStrings text) s
      ⟨t, [.string (Trim first), .string (Trim second)], []⟩ [] :=
  reads_before ((reads_before ((reads_before (reads_word word) opening).seq (reads_string one))
    comma).seq (reads_string two)) closing

theorem Call.reads_body {call : Call} {arguments : List Any} (spelled : call.Spelled s t)
    (evaluated : call.arguments.mapM (PathArgument.value checker node) = some arguments) :
    Reads (readingActions checker node) grammar (Rule.body call.rule) s ⟨t, arguments, []⟩ [] := by
  obtain ⟨a, b, c, word, opening, between, closing⟩ := spelled
  cases call with
  | xpath argument | xpath_value argument =>
      change List.mapM _ [argument] = some arguments at evaluated
      obtain ⟨value, has, rfl⟩ : ∃ value, argument.value checker node = some value ∧
          arguments = [value] := by
        rw [List.mapM_cons] at evaluated
        obtain ⟨value, has, others⟩ := Option.bind_eq_some_iff.mp evaluated
        cases others
        exact ⟨value, has, rfl⟩
      exact reads_callOf word opening (reads_argument between has) closing
  | xpath_any path | xpath_all path =>
      cases evaluated
      exact reads_callOf word opening (reads_string between) closing
  | xpath_match_regex path candidates regex =>
      cases evaluated
      obtain ⟨d, e, one, comma, f, g, two, nextComma, three⟩ := between
      have last : Reads (readingActions checker node) grammar
          (.rep 1 (some 1) (Expr.lit "," ++ .rule .STRING)) f
          (Parsed.append ⟨c, [.string (Trim regex)], []⟩ ⟨c, [], []⟩) ([] ++ []) :=
        (reads_behind nextComma (reads_string three)).needed (reads_full c)
      have others : Reads (readingActions checker node) grammar
          (.rep 2 (some 2) (Expr.lit "," ++ .rule .STRING)) d
          (Parsed.append ⟨f, [.string (Trim candidates)], []⟩ ⟨c, [.string (Trim regex)], []⟩)
          ([] ++ []) := (reads_behind comma (reads_string two)).needed last
      exact reads_before (((reads_before (reads_word word) opening).seq (reads_string one)).seq
        others) closing
  | xpath_key_based first second | xpath_key_regex_replace first second
  | xpath_value_key_regex_replace first second =>
      cases evaluated
      obtain ⟨d, e, one, comma, two⟩ := between
      exact reads_callOfStrings word opening one comma two closing

theorem Call.reads {call : Call} (spelled : call.Spelled s t)
    (has : call.value checker node = some value) :
    Reads (readingActions checker node) grammar (.rule .XPATH_FUNC_FAMILY) s ⟨t, [value], []⟩
      [] := by
  obtain ⟨arguments, evaluated, handled⟩ := Option.bind_eq_some_iff.mp has
  obtain ⟨entry, isHandled, answered⟩ := Option.bind_eq_some_iff.mp handled
  have begins : ∃ rest, s = call.name.toList ++ rest := by
    obtain ⟨_, _, _, word, _⟩ := spelled
    exact word.begins
  have body := Call.reads_body spelled evaluated
  have rule : Reads (readingActions checker node) grammar (.rule call.rule) s ⟨t, [value], []⟩
      [] := by
    cases call <;> cases isHandled <;> exact reads_read rfl body (noted_of_toOption answered)
  obtain ⟨rest, rfl⟩ := begins
  have elected : grammar.elects 20 call.rule (Rule.body .XPATH_FUNC_FAMILY) call.name.toList =
      true := by
    cases call <;> simp only [Call.rule, Call.name] <;> decide
  exact reads_passed rfl (.of_elects elected rule)

end Calls

section Operands

variable {s t : Str} {value : Any} {log : List Reading}

theorem Relator.Spelled.follows {relator : Relator} (spelled : relator.Spelled s t) :
    Follows (readingActions checker node) grammar .RELATIVE_OPERATOR s
      (some (t, .string relator.text)) := by
  have body : Reads (readingActions checker node) grammar (Rule.body .RELATIVE_OPERATOR) s
      ⟨t, [], [relator.text]⟩ [] := reads_tokenAt spelled
  refine reads_read rfl body ?_
  cases relator <;> rfl

/-- Behind the last operand stands no operator but a closing bracket. -/
theorem failsAt_closing (closing : Word ")" s t) : FailsAt grammar (.rule .RELATIVE_OPERATOR) s := by
  obtain ⟨rest, rfl⟩ := closing.begins
  have rejected : grammar.rejects 2 (.rule .RELATIVE_OPERATOR) ")".toList = true := by decide
  exact .of_rejects rejected rest

theorem compare_text {α : Type} [DecidableEq α] (relator : Relator) (left right : α) :
    compare left relator.text right = .ok (relator.apply (left = right)) := by
  unfold compare
  cases relator with
  | equal => exact if_pos rfl
  | different =>
      have other : Relator.different.text ≠ "==".toList := by decide
      have here : Relator.different.text = "<>".toList := rfl
      exact (if_neg other).trans ((if_pos here).trans (congrArg _ (decide_not ..)))

/-- What the comparison of two values of one type says is what is noted of it. -/
theorem comparedAs_of_holds {relator : Relator} {left right : Any} {holds : Bool}
    (has : relator.holds left right = some holds) (tokens : List Str) (sv : Str) :
    comparedAs ⟨[left, .string relator.text, right], tokens, sv⟩ =
      (.bool holds, [.compared holds]) := by
  have compared : infixResult ⟨[left, .string relator.text, right], tokens, sv⟩ = .ok holds := by
    obtain ⟨same, typed, told⟩ := Option.map_eq_some_iff.mp has
    cases told
    cases left <;> cases right <;> cases typed <;> exact compare_text relator _ _
  unfold comparedAs
  rw [compared]

theorem reads_logical {name : Rule} {word rest : Str}
    (elected : grammar.elects 20 name (Rule.body .LOGICAL_EXPRESSION) word = true)
    (reads : Reads (readingActions checker node) grammar (.rule name) (word ++ rest)
      ⟨t, [value], []⟩ log) :
    Reads (readingActions checker node) grammar (.rule .LOGICAL_EXPRESSION) (word ++ rest)
      ⟨t, [value], []⟩ log :=
  reads_passed rfl (.of_elects elected reads)

theorem reads_must {a b c : Str} {holds : Bool} (word : Word "must" s a) (opening : Word "(" a b)
    (reads : Reads (readingActions checker node) grammar Rule.comparison b ⟨c, [.bool holds], []⟩
      log) (closing : Word ")" c t) :
    Reads (readingActions checker node) grammar (.rule .MUST_FUNC) s ⟨t, [.bool holds], []⟩
      (log ++ [.required holds]) :=
  reads_read rfl (reads_callOf word opening reads closing) rfl

/-- The characters that a number begins with. -/
def numeric : Str := "-0123456789".toList

theorem numeric_of_digit {c : Char} (least : '0' ≤ c) (most : c ≤ '9') : c ∈ numeric := by
  have bounds : 48 ≤ c.toNat ∧ c.toNat ≤ 57 := ⟨least, most⟩
  have named : c = Char.ofNat c.toNat := c.ofNat_toNat.symm
  have all : ∀ code < 58, 48 ≤ code → Char.ofNat code ∈ numeric := by decide
  rw [named]
  exact all _ (by omega) bounds.1

theorem TokenAt.numeric {token : Str} (spelled : TokenAt numeral token s t) :
    ∃ c rest, s = [c] ++ rest ∧ c ∈ numeric := by
  obtain ⟨rest, stripped, _, _⟩ := spelled
  cases s with
  | nil => cases stripped
  | cons c tail =>
      refine ⟨c, tail, rfl, ?_⟩
      by_cases sign : c = '-'
      · exact sign ▸ List.mem_cons_self
      · have unsigned : (Lexeme.literal "-".toList).strip (c :: tail) = none := by
          refine if_neg fun prefixed => sign ?_
          exact (List.cons_prefix_cons.mp (List.isPrefixOf_iff_prefix.mp prefixed)).1.symm
        have digits : (numeral.strip (c :: tail)) =
            (Lexeme.characters [('0', '9')] false |>.strip (c :: tail)).bind
              (Lexeme.many (.characters [('0', '9')] false)).strip := by
          have absent : (Lexeme.literal "-".toList).optional.strip (c :: tail) = some (c :: tail) :=
            congrArg (fun left => some (Option.getD left (c :: tail))) unsigned
          have whole : numeral.strip (c :: tail) =
              ((Lexeme.literal "-".toList).optional.strip (c :: tail)).bind
                (Lexeme.seq (.characters [('0', '9')] false)
                  (.many (.characters [('0', '9')] false))).strip := rfl
          rw [whole, absent]
          rfl
        rw [digits] at stripped
        obtain ⟨_, first, _⟩ := Option.bind_eq_some_iff.mp stripped
        unfold Lexeme.strip at first
        split at first
        · cases first
        · next within =>
          simp only [List.any_cons, List.any_nil, Bool.or_false, Bool.not_eq_false,
            Bool.and_eq_true, decide_eq_true_eq] at within
          exact numeric_of_digit within.1 within.2

theorem reads_number {token : Str} (spelled : TokenAt numeral token s t) :
    Reads (readingActions checker node) grammar (.rule .LOGICAL_EXPRESSION) s
      ⟨t, [.number (token_to_number token)], []⟩ [] := by
  have body : Reads (readingActions checker node) grammar (Rule.body .NUMBER) s
      ⟨t, [], [token]⟩ [] := reads_tokenAt spelled
  obtain ⟨c, rest, rfl, begins⟩ := spelled.numeric
  have elected : numeric.all
      (fun c => grammar.elects 20 .NUMBER (Rule.body .LOGICAL_EXPRESSION) [c]) = true := by decide
  exact reads_logical (List.all_eq_true.mp elected c begins) (reads_read rfl body rfl)

theorem reads_boolean {token : Str}
    (spelled : TokenAt (.choice (.literal "true".toList) (.literal "false".toList)) token s t)
    (has : (BooleanHandle ⟨[], [token], []⟩).toOption = some value) :
    Reads (readingActions checker node) grammar (.rule .LOGICAL_EXPRESSION) s ⟨t, [value], []⟩
      [] := by
  have body : Reads (readingActions checker node) grammar (Rule.body .BOOLEAN) s
      ⟨t, [], [token]⟩ [] := reads_tokenAt spelled
  have reads : Reads (readingActions checker node) grammar (.rule .BOOLEAN) s ⟨t, [value], []⟩
      [] := reads_read rfl body (noted_of_toOption has)
  obtain ⟨rest, stripped, _, _⟩ := spelled
  rcases Option.or_eq_some_iff.mp stripped with literal | ⟨_, literal⟩
  · rw [stripPrefix_eq_some.mp literal] at reads ⊢
    exact reads_logical (by decide) reads
  · rw [stripPrefix_eq_some.mp literal] at reads ⊢
    exact reads_logical (by decide) reads

mutual

/-- An operand is read with its value, and the comparisons and `must`s in it are noted. -/
theorem Operand.reads : ∀ {operand : Operand} {s t : Str} {value : Any} {log : List Reading},
    operand.Spelled s t → operand.evaluate checker node = some (value, log) →
      Reads (readingActions checker node) grammar (.rule .LOGICAL_EXPRESSION) s ⟨t, [value], []⟩ log
  | .must_func first others, s, t, value, log, spelled, has => by
      obtain ⟨a, b, c, d, word, opening, firstSpelled, othersSpelled, closing⟩ := spelled
      obtain ⟨left, leftHas, has⟩ := Option.bind_eq_some_iff.mp has
      obtain ⟨whole, wholeHas, has⟩ := Option.bind_eq_some_iff.mp has
      obtain ⟨seen, _, readsOn⟩ := Operands.readsOn othersSpelled wholeHas (failsAt_closing closing) b
      have compared := Reads.infix (Operand.reads firstSpelled leftHas) readsOn
      obtain ⟨result, more⟩ := whole
      cases result with
      | bool holds =>
          cases has
          obtain ⟨rest, rfl⟩ := word.begins
          exact reads_logical (by decide) (reads_must word opening compared closing)
      | empty | number | string | xpaths => cases has
  | .count_func call, s, t, value, log, spelled, has => by
      obtain ⟨a, b, c, word, opening, callSpelled, closing⟩ := spelled
      obtain ⟨xpaths, callHas, has⟩ := Option.bind_eq_some_iff.mp has
      obtain ⟨counted, countHas, has⟩ := Option.bind_eq_some_iff.mp has
      cases has
      have reads : Reads (readingActions checker node) grammar (.rule .COUNT_FUNC) s ⟨t, [value], []⟩
          ([] ++ []) :=
        reads_read rfl (reads_callOf word opening (Call.reads callSpelled callHas) closing)
          (noted_of_toOption countHas)
      obtain ⟨rest, rfl⟩ := word.begins
      exact reads_logical (by decide) reads
  | .exists_func call, s, t, value, log, spelled, has => by
      obtain ⟨a, b, c, word, opening, callSpelled, closing⟩ := spelled
      obtain ⟨xpaths, callHas, has⟩ := Option.bind_eq_some_iff.mp has
      obtain ⟨found, existsHas, has⟩ := Option.bind_eq_some_iff.mp has
      cases has
      have reads : Reads (readingActions checker node) grammar (.rule .EXISTS_FUNC) s ⟨t, [value], []⟩
          ([] ++ []) :=
        reads_read rfl (reads_callOf word opening (Call.reads callSpelled callHas) closing)
          (noted_of_toOption existsHas)
      obtain ⟨rest, rfl⟩ := word.begins
      exact reads_logical (by decide) reads
  | .path call, s, t, value, log, spelled, has => by
      obtain ⟨result, callHas, same⟩ := Option.map_eq_some_iff.mp has
      cases same
      have reads := Call.reads spelled callHas
      obtain ⟨_, _, _, word, _⟩ := spelled
      obtain ⟨rest, rfl⟩ := word.begins
      obtain ⟨tail, named⟩ : ∃ tail, call.name.toList = "xpath".toList ++ tail := by
        exact ⟨call.name.toList.drop 5, by cases call <;> simp only [Call.name] <;> decide⟩
      rw [named, List.append_assoc] at reads ⊢
      exact reads_logical (by decide) reads
  | .string content, s, t, value, log, spelled, has => by
      cases has
      have reads : Reads (readingActions checker node) grammar (.rule .STRING) s
          ⟨t, [.string (Trim content)], []⟩ [] := reads_string spelled
      obtain ⟨_, _, word, _⟩ := spelled
      obtain ⟨rest, rfl⟩ := word.begins
      exact reads_logical (by decide) reads
  | .number token, s, t, value, log, spelled, has => by
      cases has
      exact reads_number spelled
  | .boolean token, s, t, value, log, spelled, has => by
      obtain ⟨result, booleanHas, same⟩ := Option.map_eq_some_iff.mp has
      cases same
      exact reads_boolean spelled booleanHas

/-- The operators and operands behind a left operand are read from left to right. -/
theorem Operands.readsOn : ∀ {others : Operands} {s t : Str} {left value : Any}
    {log : List Reading}, others.Spelled s t →
      others.evaluate checker node left = some (value, log) →
        FailsAt grammar (.rule .RELATIVE_OPERATOR) t → ∀ start, ∃ seen,
          Follows (readingActions checker node) grammar .RELATIVE_OPERATOR s seen ∧
            ReadsOn (readingActions checker node) grammar .INFIX_EXPRESSION
              (.rule .LOGICAL_EXPRESSION) .RELATIVE_OPERATOR start ⟨s, [left], []⟩ seen
              ⟨t, [value], []⟩ log
  | .done, s, t, left, value, log, spelled, has, ends, start => by
      cases has
      cases spelled
      exact ⟨none, ends, readsOn_end ends⟩
  | .next relator operand others, s, t, left, value, log, spelled, has, ends, start => by
      obtain ⟨a, b, operator, operandSpelled, othersSpelled⟩ := spelled
      obtain ⟨right, rightHas, has⟩ := Option.bind_eq_some_iff.mp has
      obtain ⟨holds, holdsHas, has⟩ := Option.bind_eq_some_iff.mp has
      obtain ⟨whole, wholeHas, same⟩ := Option.map_eq_some_iff.mp has
      cases same
      obtain ⟨seen, follows, rest⟩ := Operands.readsOn othersSpelled wholeHas ends start
      refine ⟨_, operator.follows, ?_⟩
      have reduced : ∀ user, (readingActions checker node).reduce .INFIX_EXPRESSION
          ⟨[left] ++ [.string relator.text] ++ [right.1].take 1, [], consumed start b⟩ user =
            .ok (.bool holds) (user ++ [.compared holds]) := by
        intro user
        have read := readingActions_reduce checker node (rfl : readAs _ _ .INFIX_EXPRESSION = _)
          ⟨[left, .string relator.text, right.1], [], consumed start b⟩ user
        rw [comparedAs_of_holds holdsHas] at read
        exact read
      have inOrder : right.2 ++ .compared holds :: whole.2 =
          right.2 ++ [.compared holds] ++ whole.2 := List.append_cons ..
      rw [inOrder]
      exact ReadsOn.next operator.follows (Operand.reads operandSpelled rightHas) follows reduced rest

end

theorem Comparison.reads {comparison : Comparison} {b c : Str} {holds : Bool}
    (spelled : comparison.Spelled b c) (closing : Word ")" c t)
    (has : comparison.evaluate checker node = some (holds, log)) :
    Reads (readingActions checker node) grammar Rule.comparison b ⟨c, [.bool holds], []⟩ log := by
  obtain ⟨a, firstSpelled, othersSpelled⟩ := spelled
  obtain ⟨left, leftHas, has⟩ := Option.bind_eq_some_iff.mp has
  obtain ⟨whole, wholeHas, has⟩ := Option.bind_eq_some_iff.mp has
  obtain ⟨seen, _, readsOn⟩ := Operands.readsOn othersSpelled wholeHas (failsAt_closing closing) b
  obtain ⟨result, more⟩ := whole
  cases result with
  | bool _ =>
      cases has
      exact Reads.infix (Operand.reads firstSpelled leftHas) readsOn
  | empty | number | string | xpaths => cases has

/-- `must(e)` is read where an expression stands. -/
theorem Comparison.Required.reads {requirement : Comparison} {holds : Bool}
    (required : requirement.Required s t)
    (has : requirement.evaluate checker node = some (holds, log)) :
    Reads (readingActions checker node) grammar (.rule .EXPRESSION) s ⟨t, [.bool holds], []⟩
      (log ++ [.required holds]) := by
  obtain ⟨a, b, c, d, word, opening, first, others, closing⟩ := required
  have reads := reads_must word opening (Comparison.reads ⟨c, first, others⟩ closing has) closing
  obtain ⟨rest, rfl⟩ := word.begins
  have elected : grammar.elects 20 .MUST_FUNC (Rule.body .EXPRESSION) "must".toList = true := by
    decide
  exact reads_passed rfl (.of_elects elected reads)

end Operands

section Statements

variable {s t text : Str} {value : Bool} {log : List Reading} {comparison : Comparison}

theorem Comparison.exists_steps (has : comparison.value checker node = some value) :
    comparison.evaluate checker node = some (value, comparison.steps checker node) := by
  obtain ⟨⟨holds, log⟩, evaluated, rfl⟩ := Option.map_eq_some_iff.mp has
  unfold Comparison.steps
  rw [evaluated]
  rfl

theorem Comparison.requiredSteps_of_value (has : comparison.value checker node = some value) :
    comparison.requiredSteps checker node = comparison.steps checker node ++ [.required value] := by
  unfold Comparison.requiredSteps
  rw [has]
  rfl

/-- `must(e)` notes what is in `e` and then what it requires. -/
theorem Comparison.Required.notes (required : comparison.Required s t)
    (has : comparison.value checker node = some value) :
    Reads (readingActions checker node) grammar (.rule .EXPRESSION) s ⟨t, [.bool value], []⟩
      (comparison.requiredSteps checker node) := by
  rw [Comparison.requiredSteps_of_value has]
  exact required.reads (Comparison.exists_steps has)

theorem reads_then (word : Word "then" s t) :
    Reads (readingActions checker node) grammar (.rule .THEN_STATEMENT) s ⟨t, [.empty], []⟩
      [.thenReached] := by
  obtain ⟨rest, stripped, rfl⟩ := Option.map_eq_some_iff.mp word
  have body : Reads (readingActions checker node) grammar (Rule.body .THEN_STATEMENT) s
      ⟨grammar.skip rest, [], [consumed s rest]⟩ [] := by
    have literal : (Lexeme.literal "then".toList).strip s = some rest := stripped
    exact reads_token literal
  exact reads_read rfl body rfl

variable (checker node) in
/-- The comparisons, the `must`s and the `then` of a constraint in their order. -/
def Statement.steps : Statement → List Reading
  | .must requirement => requirement.requiredSteps checker node
  | .ifThen condition consequence alternative =>
    condition.steps checker node ++ .thenReached :: (consequence.requiredSteps checker node ++
      (alternative.map (Comparison.requiredSteps checker node)).getD [])

/-- The `else` of a constraint is read with its `must`, and none where there is none. -/
theorem reads_else {alternative : Option Comparison}
    (spelled : match alternative with
      | none => s = []
      | some other => ∃ a, Word "else" s a ∧ other.Required a [])
    (has : ∀ other ∈ alternative, ∃ value, other.value checker node = some value) :
    ∃ values, Reads (readingActions checker node) grammar
      (Expr.optional (Expr.lit "else" ++ .rule .EXPRESSION)) s ⟨[], values, []⟩
        ((alternative.map (Comparison.requiredSteps checker node)).getD []) := by
  cases alternative with
  | none =>
      cases spelled
      exact ⟨[], reads_absent (by decide) (.seq (.literal rfl))⟩
  | some other =>
      obtain ⟨a, word, required⟩ := spelled
      obtain ⟨value, valued⟩ := has other rfl
      exact ⟨[.bool value], (reads_behind word (required.notes valued)).present⟩

/-- The parts of a constraint that has a value have values. -/
theorem ifThen_values {condition consequence : Comparison} {alternative : Option Comparison}
    (has : (Statement.ifThen condition consequence alternative).value checker node = some value) :
    ∃ holds necessary, condition.value checker node = some holds ∧
      consequence.value checker node = some necessary ∧
        ∀ other ∈ alternative, ∃ value, other.value checker node = some value := by
  cases alternative with
  | none =>
      obtain ⟨holds, conditionHas, has⟩ := Option.bind_eq_some_iff.mp has
      obtain ⟨necessary, consequenceHas, _⟩ := Option.bind_eq_some_iff.mp has
      exact ⟨holds, necessary, conditionHas, consequenceHas, fun _ impossible => nomatch impossible⟩
  | some other =>
      obtain ⟨holds, conditionHas, has⟩ := Option.bind_eq_some_iff.mp has
      obtain ⟨necessary, consequenceHas, has⟩ := Option.bind_eq_some_iff.mp has
      obtain ⟨otherwise, otherHas, _⟩ := Option.bind_eq_some_iff.mp has
      refine ⟨holds, necessary, conditionHas, consequenceHas, fun _ member => ?_⟩
      cases member
      exact ⟨otherwise, otherHas⟩

theorem Statement.Spelled.reads {statement : Statement} (spelled : statement.Spelled text)
    (has : statement.value checker node = some value) :
    ∃ left, Reads (readingActions checker node) grammar (.rule .PROGRAM) (grammar.skip text)
      ⟨[], [left], []⟩ (statement.steps checker node) := by
  cases statement with
  | must requirement =>
      have reads := Comparison.Required.notes spelled has
      obtain ⟨_, _, _, _, word, _⟩ := spelled
      obtain ⟨rest, same⟩ := word.begins
      rw [same] at reads ⊢
      have elected : grammar.elects 20 .EXPRESSION (Rule.body .PROGRAM) "must".toList = true := by
        decide
      exact ⟨.bool value, reads_passed rfl (.of_elects elected reads)⟩
  | ifThen condition consequence alternative =>
      obtain ⟨a, b, c, d, e, f, word, opening, conditionSpelled, closing, thenWord, required,
        elseSpelled⟩ := spelled
      obtain ⟨holds, necessary, conditionHas, consequenceHas, alternativeHas⟩ :=
        ifThen_values has
      obtain ⟨values, last⟩ := reads_else elseSpelled alternativeHas
      have compared := Comparison.reads conditionSpelled closing
        (Comparison.exists_steps conditionHas)
      have body : Reads (readingActions checker node) grammar (Rule.body .IF_STATEMENT)
          (grammar.skip text) ⟨[], .bool holds :: .empty :: .bool necessary :: values, []⟩
          (condition.steps checker node ++ [.thenReached] ++
            consequence.requiredSteps checker node ++ _) :=
        (((reads_callOf word opening compared closing).seq (reads_then thenWord)).seq
          (required.notes consequenceHas)).seq last
      rw [List.append_assoc, List.append_assoc] at body
      have reads : Reads (readingActions checker node) grammar (.rule .IF_STATEMENT) _
          ⟨[], [.bool holds], []⟩ _ := reads_passed rfl body
      obtain ⟨rest, same⟩ := word.begins
      rw [same] at reads ⊢
      have elected : grammar.elects 20 .IF_STATEMENT (Rule.body .PROGRAM) "if".toList = true := by
        decide
      exact ⟨.bool holds, reads_passed rfl (.of_elects elected reads)⟩

/-- What is read of a constraint is what is written. -/
theorem Statement.Spelled.readings_eq {statement : Statement} (spelled : statement.Spelled text)
    (has : statement.value checker node = some value) :
    readings checker node text = statement.steps checker node := by
  obtain ⟨left, reads⟩ := spelled.reads has
  obtain ⟨next, runs, moved⟩ := reads (.fresh []) (cacheSound_fresh _) fun _ _ _ => .inl rfl
  unfold readings
  rw [parse_of_runs runs, final_ok, moved.user]
  rfl

end Statements

end FlexConfig.Constraint
