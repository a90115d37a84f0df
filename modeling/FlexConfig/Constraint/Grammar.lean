import FlexConfig.Foundation.Packrat

/-! # The grammar of constraints

The rules of the grammar that a constraint is parsed with, one definition for each
line of it. A rule that is a literal or a choice of literals is a token. The macro
for infix expressions is applied where it is used; its operators are of one level
and associate to the left.
-/

namespace FlexConfig.Constraint

open Peg Peg.Expr

/-- The rules. -/
inductive Rule where
  | PROGRAM
  | IF_STATEMENT
  | THEN_STATEMENT
  | LOGICAL_EXPRESSION
  | EXPRESSION
  | MUST_FUNC
  | COUNT_FUNC
  | EXISTS_FUNC
  | XPATH_FUNC_FAMILY
  | XPATH_FUNC
  | XPATH_VALUE_FUNC
  | XPATH_ANY_FUNC
  | XPATH_ALL_FUNC
  | XPATH_MATCH_REGEX_FUNC
  | XPATH_KEY_BASED_FUNC
  | XPATH_KEY_REGEX_REPLACE_FUNC
  | XPATH_VALUE_KEY_REGEX_REPLACE_FUNC
  | PRINT_FUNC
  | Additive
  | Subtractive
  | Multitive
  | Divisive
  | PRIMARY
  | REFERENCE
  | RELATIVE_OPERATOR
  | STRING
  | NUMBER
  | BOOLEAN
  | INFIX_EXPRESSION
  deriving DecidableEq

namespace Rule

/-- `INFIX_EXPRESSION(A, O)`, with the operators of its precedence table. -/
def infixExpression (a o : Rule) : Expr Rule := .infixLeft INFIX_EXPRESSION (.rule a) (.rule o)

/-- The expression both kinds of conditions are made of. -/
def comparison : Expr Rule := infixExpression LOGICAL_EXPRESSION RELATIVE_OPERATOR

/-- A function applied to one argument. -/
def callOf (name : String) (argument : Expr Rule) : Expr Rule :=
  lit name ++ lit "(" ++ argument ++ lit ")"

/-- A function applied to two strings. -/
def callOfStrings (name : String) : Expr Rule :=
  lit name ++ lit "(" ++ .rule STRING ++ lit "," ++ .rule STRING ++ lit ")"

/-- The body of a rule. -/
def body : Rule → Expr Rule
  | PROGRAM => .rule IF_STATEMENT ||| .rule EXPRESSION ||| .rule LOGICAL_EXPRESSION
  | IF_STATEMENT =>
    lit "if" ++ lit "(" ++ comparison ++ lit ")" ++ .rule THEN_STATEMENT ++ .rule EXPRESSION ++
      (lit "else" ++ .rule EXPRESSION).optional
  | THEN_STATEMENT => .token (.literal "then".toList)
  | LOGICAL_EXPRESSION =>
    .rule MUST_FUNC ||| .rule COUNT_FUNC ||| .rule EXISTS_FUNC ||| .rule XPATH_FUNC_FAMILY |||
      .rule STRING ||| .rule NUMBER ||| .rule BOOLEAN
  | EXPRESSION =>
    .rule Additive ||| .rule MUST_FUNC ||| .rule COUNT_FUNC ||| .rule EXISTS_FUNC |||
      .rule XPATH_FUNC_FAMILY ||| .rule PRINT_FUNC ||| .rule PRIMARY
  | MUST_FUNC => callOf "must" comparison
  | COUNT_FUNC => callOf "count" (.rule XPATH_FUNC_FAMILY)
  | EXISTS_FUNC => callOf "exists" (.rule XPATH_FUNC_FAMILY)
  | XPATH_FUNC_FAMILY =>
    .rule XPATH_FUNC ||| .rule XPATH_VALUE_FUNC ||| .rule XPATH_ALL_FUNC ||| .rule XPATH_ANY_FUNC |||
      .rule XPATH_MATCH_REGEX_FUNC ||| .rule XPATH_KEY_BASED_FUNC |||
      .rule XPATH_KEY_REGEX_REPLACE_FUNC ||| .rule XPATH_VALUE_KEY_REGEX_REPLACE_FUNC
  | XPATH_FUNC => callOf "xpath" (.rule STRING ||| .rule REFERENCE)
  | XPATH_VALUE_FUNC => callOf "xpath_value" (.rule STRING ||| .rule REFERENCE)
  | XPATH_ANY_FUNC => callOf "xpath_any" (.rule STRING)
  | XPATH_ALL_FUNC => callOf "xpath_all" (.rule STRING)
  | XPATH_MATCH_REGEX_FUNC =>
    lit "xpath_match_regex" ++ lit "(" ++ .rule STRING ++
      .rep 2 (some 2) (lit "," ++ .rule STRING) ++ lit ")"
  | XPATH_KEY_BASED_FUNC => callOfStrings "xpath_key_based"
  | XPATH_KEY_REGEX_REPLACE_FUNC => callOfStrings "xpath_key_regex_replace"
  | XPATH_VALUE_KEY_REGEX_REPLACE_FUNC => callOfStrings "xpath_value_key_regex_replace"
  | PRINT_FUNC => callOf "print" (.rule EXPRESSION)
  | Additive =>
    .rule Multitive ++ lit "+" ++ .rule Additive ||| .rule Divisive ++ lit "+" ++ .rule Additive |||
      .rule Subtractive
  | Subtractive =>
    .rule Multitive ++ lit "-" ++ .rule Subtractive |||
      .rule Divisive ++ lit "-" ++ .rule Subtractive ||| .rule Multitive ||| .rule Divisive
  | Multitive => .rule PRIMARY ++ lit "*" ++ .rule Multitive ||| .rule PRIMARY
  | Divisive => .rule PRIMARY ++ lit "/" ++ .rule Divisive ||| .rule PRIMARY
  | PRIMARY =>
    lit "(" ++ .rule EXPRESSION ++ lit ")" ||| .rule STRING ||| .rule NUMBER ||| .rule BOOLEAN
  | REFERENCE => .token (.literal "@".toList)
  | RELATIVE_OPERATOR => .token (.dictionary ["==".toList, "<>".toList])
  | STRING => lit "'" ++ .token (.many (.characters [('\'', '\'')] true)) ++ lit "'"
  | NUMBER =>
    .token (.seq (.optional (.literal "-".toList))
      (.seq (.characters [('0', '9')] false) (.many (.characters [('0', '9')] false))))
  | BOOLEAN => .token (.choice (.literal "true".toList) (.literal "false".toList))
  | INFIX_EXPRESSION => comparison

/-- How far down the leading rules of a rule reach. -/
def rank : Rule → Nat
  | PROGRAM => 6
  | EXPRESSION => 5
  | Additive => 4
  | Subtractive | INFIX_EXPRESSION => 3
  | LOGICAL_EXPRESSION | Multitive | Divisive => 2
  | XPATH_FUNC_FAMILY | PRIMARY => 1
  | _ => 0

end Rule

/-- `%whitespace`. -/
def isSpace (c : Char) : Bool := c ∈ [' ', '\t', '\r', '\n']

/-- The grammar of constraints. -/
def grammar : Grammar Rule where
  body := Rule.body
  isSpace := isSpace
  rank := Rule.rank
  height := 7
  width := 30
  rank_lt := fun name => by cases name <;> decide
  body_consumes := fun name => by cases name <;> decide
  body_guarded := fun name => by cases name <;> decide
  body_size := fun name => by cases name <;> decide

end FlexConfig.Constraint
