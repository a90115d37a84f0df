import FlexConfig.Constraint.WellFormed
import FlexConfig.Foundation.PackratPrefix

/-! # Written constraints

The constraints that require something, with or without a condition, as they are written:
comparisons of operands from left to right, white space behind any word. Each has a value
by its logic, and comparisons and `must`s that are come to on the way to it.
-/

namespace FlexConfig.Constraint

open Peg Procedure

section Syntax

/-- An argument of a function of paths. -/
inductive PathArgument where
  | string (content : Str)
  | reference

/-- A function of paths applied to its arguments. -/
inductive Call where
  | xpath (argument : PathArgument)
  | xpath_value (argument : PathArgument)
  | xpath_any (path : Str)
  | xpath_all (path : Str)
  | xpath_match_regex (path candidates regex : Str)
  | xpath_key_based (path reference : Str)
  | xpath_key_regex_replace (path regex : Str)
  | xpath_value_key_regex_replace (path regex : Str)

inductive Relator where
  | equal
  | different

mutual

/-- An operand of a comparison. -/
inductive Operand where
  | must_func (first : Operand) (others : Operands)
  | count_func (call : Call)
  | exists_func (call : Call)
  | path (call : Call)
  | string (content : Str)
  | number (token : Str)
  | boolean (token : Str)

/-- The operators and operands behind the first operand. -/
inductive Operands where
  | done
  | next (relator : Relator) (operand : Operand) (others : Operands)

end

/-- A single operand, or operands compared from left to right. -/
structure Comparison where
  first : Operand
  others : Operands

/-- The constraints `must(e)`, `if (c) then must(e)` and `if (c) then must(e) else must(f)`. -/
inductive Statement where
  | must (requirement : Comparison)
  | ifThen (condition consequence : Comparison) (alternative : Option Comparison)

end Syntax

section Spelling

/-- A word stands at the beginning of a text, and a rest behind it and the white space there. -/
def Word (text : String) (s t : Str) : Prop := grammar.literalRest text.toList s = some t

instance (text : String) (s t : Str) : Decidable (Word text s t) :=
  inferInstanceAs (Decidable (_ = _))

/-- A token stands at the beginning of a text. -/
def TokenAt (lexeme : Lexeme) (content s t : Str) : Prop :=
  ∃ rest, lexeme.strip s = some rest ∧ content = consumed s rest ∧ t = grammar.skip rest

/-- A string between quotes. -/
def Quoted (content s t : Str) : Prop :=
  ∃ a b, Word "'" s a ∧ TokenAt (.many (.characters [('\'', '\'')] true)) content a b ∧ Word "'" b t

def PathArgument.Spelled : PathArgument → Str → Str → Prop
  | .string content, s, t => Quoted content s t
  | .reference, s, t => TokenAt (.literal "@".toList) "@".toList s t

/-- Arguments with commas between them. -/
def SpelledArguments : List PathArgument → Str → Str → Prop
  | [], s, t => s = t
  | [argument], s, t => argument.Spelled s t
  | argument :: rest, s, t =>
    ∃ a b, argument.Spelled s a ∧ Word "," a b ∧ SpelledArguments rest b t

namespace Call

def rule : Call → Rule
  | xpath _ => .XPATH_FUNC
  | xpath_value _ => .XPATH_VALUE_FUNC
  | xpath_any _ => .XPATH_ANY_FUNC
  | xpath_all _ => .XPATH_ALL_FUNC
  | xpath_match_regex _ _ _ => .XPATH_MATCH_REGEX_FUNC
  | xpath_key_based _ _ => .XPATH_KEY_BASED_FUNC
  | xpath_key_regex_replace _ _ => .XPATH_KEY_REGEX_REPLACE_FUNC
  | xpath_value_key_regex_replace _ _ => .XPATH_VALUE_KEY_REGEX_REPLACE_FUNC

def name : Call → String
  | xpath _ => "xpath"
  | xpath_value _ => "xpath_value"
  | xpath_any _ => "xpath_any"
  | xpath_all _ => "xpath_all"
  | xpath_match_regex _ _ _ => "xpath_match_regex"
  | xpath_key_based _ _ => "xpath_key_based"
  | xpath_key_regex_replace _ _ => "xpath_key_regex_replace"
  | xpath_value_key_regex_replace _ _ => "xpath_value_key_regex_replace"

def arguments : Call → List PathArgument
  | xpath argument | xpath_value argument => [argument]
  | xpath_any path | xpath_all path => [.string path]
  | xpath_match_regex path candidates regex => [.string path, .string candidates, .string regex]
  | xpath_key_based path reference => [.string path, .string reference]
  | xpath_key_regex_replace path regex | xpath_value_key_regex_replace path regex =>
    [.string path, .string regex]

def Spelled (call : Call) (s t : Str) : Prop :=
  ∃ a b c, Word call.name s a ∧ Word "(" a b ∧ SpelledArguments call.arguments b c ∧ Word ")" c t

end Call

def Relator.text : Relator → Str
  | equal => "==".toList
  | different => "<>".toList

def Relator.Spelled (relator : Relator) (s t : Str) : Prop :=
  TokenAt (.dictionary ["==".toList, "<>".toList]) relator.text s t

/-- The digits of a number, behind a sign or not. -/
def numeral : Lexeme :=
  .seq (.optional (.literal "-".toList))
    (.seq (.characters [('0', '9')] false) (.many (.characters [('0', '9')] false)))

mutual

/-- An operand is written at the beginning of a text and leaves a rest. -/
def Operand.Spelled : Operand → Str → Str → Prop
  | .must_func first others, s, t => ∃ a b c d, Word "must" s a ∧ Word "(" a b ∧
      first.Spelled b c ∧ others.Spelled c d ∧ Word ")" d t
  | .count_func call, s, t =>
    ∃ a b c, Word "count" s a ∧ Word "(" a b ∧ call.Spelled b c ∧ Word ")" c t
  | .exists_func call, s, t =>
    ∃ a b c, Word "exists" s a ∧ Word "(" a b ∧ call.Spelled b c ∧ Word ")" c t
  | .path call, s, t => call.Spelled s t
  | .string content, s, t => Quoted content s t
  | .number token, s, t => TokenAt numeral token s t
  | .boolean token, s, t =>
    TokenAt (.choice (.literal "true".toList) (.literal "false".toList)) token s t

def Operands.Spelled : Operands → Str → Str → Prop
  | .done, s, t => s = t
  | .next relator operand others, s, t =>
    ∃ a b, relator.Spelled s a ∧ operand.Spelled a b ∧ others.Spelled b t

end

def Comparison.Spelled (comparison : Comparison) (s t : Str) : Prop :=
  ∃ a, comparison.first.Spelled s a ∧ comparison.others.Spelled a t

/-- `must(e)`. -/
def Comparison.Required (comparison : Comparison) (s t : Str) : Prop :=
  (Operand.must_func comparison.first comparison.others).Spelled s t

/-- A text is a constraint as a whole. -/
def Statement.Spelled : Statement → Str → Prop
  | .must requirement, text => requirement.Required (grammar.skip text) []
  | .ifThen condition consequence alternative, text => ∃ a b c d e f,
    Word "if" (grammar.skip text) a ∧ Word "(" a b ∧ condition.Spelled b c ∧ Word ")" c d ∧
      Word "then" d e ∧ consequence.Required e f ∧
      match alternative with
      | none => f = []
      | some other => ∃ g, Word "else" f g ∧ other.Required g []

end Spelling

section Logic

/-- Whether two values of one type are the same. -/
def sameAs : Any → Any → Option Bool
  | .bool left, .bool right => some (left = right)
  | .number left, .number right => some (left = right)
  | .string left, .string right => some (left = right)
  | _, _ => none

/-- What an operator makes of two values' being the same. -/
def Relator.apply : Relator → Bool → Bool
  | equal, same => same
  | different, same => !same

def Relator.holds (relator : Relator) (left right : Any) : Option Bool :=
  (sameAs left right).map relator.apply

variable (checker : ConstraintChecker) (node : Location)

def PathArgument.value : PathArgument → Option Any
  | .string content => some (.string (Trim content))
  | .reference => (ReferenceHandle checker node ⟨[], ["@".toList], []⟩).toOption

def Call.value (call : Call) : Option Any := do
  let values ← call.arguments.mapM (PathArgument.value checker node)
  let entry ← handler checker node call.rule
  (entry.2 ⟨values, [], []⟩).toOption

mutual

/-- The value of an operand, and the comparisons and `must`s in it in the order in which they
are completed. -/
def Operand.evaluate : Operand → Option (Any × List Reading)
  | .must_func first others =>
    first.evaluate.bind fun left => (others.evaluate left.1).bind fun whole =>
      match whole.1 with
      | .bool holds => some (.bool holds, left.2 ++ whole.2 ++ [.required holds])
      | _ => none
  | .count_func call => do
    let xpaths ← call.value checker node
    let value ← (CountHandle checker ⟨[xpaths], [], []⟩).toOption
    return (value, [])
  | .exists_func call => do
    let xpaths ← call.value checker node
    let value ← (ExistsHandle checker ⟨[xpaths], [], []⟩).toOption
    return (value, [])
  | .path call => (call.value checker node).map fun value => (value, [])
  | .string content => some (.string (Trim content), [])
  | .number token => some (.number (token_to_number token), [])
  | .boolean token => (BooleanHandle ⟨[], [token], []⟩).toOption.map fun value => (value, [])

def Operands.evaluate : Operands → (left : Any) → Option (Any × List Reading)
  | .done, left => some (left, [])
  | .next relator operand others, left =>
    operand.evaluate.bind fun right => (relator.holds left right.1).bind fun holds =>
      (others.evaluate (.bool holds)).map fun whole =>
        (whole.1, right.2 ++ .compared holds :: whole.2)

end

namespace Comparison

variable (comparison : Comparison)

/-- The truth of a comparison, or of a single operand. -/
def evaluate : Option (Bool × List Reading) :=
  (comparison.first.evaluate checker node).bind fun left =>
    (comparison.others.evaluate checker node left.1).bind fun whole =>
      match whole.1 with
      | .bool holds => some (holds, left.2 ++ whole.2)
      | _ => none

def value : Option Bool := (comparison.evaluate checker node).map Prod.fst

/-- The comparisons and `must`s in a comparison. -/
def steps : List Reading := ((comparison.evaluate checker node).map Prod.snd).getD []

/-- The steps of `must(e)`. -/
def requiredSteps : List Reading :=
  comparison.steps checker node ++
    ((comparison.value checker node).map Reading.required).toList

end Comparison

/-- The value of a constraint by its logic. -/
def Statement.value : Statement → Option Bool
  | .must requirement => requirement.value checker node
  | .ifThen condition consequence none => do
    let holds ← condition.value checker node
    let required ← consequence.value checker node
    return !holds || required
  | .ifThen condition consequence (some alternative) => do
    let holds ← condition.value checker node
    let required ← consequence.value checker node
    let otherwise ← alternative.value checker node
    return (!holds || required) && (holds || otherwise)

/-- The last `must` that is completed before the first false comparison, false where there is
none. -/
def lastMust (steps : List Reading) : Bool :=
  standing (steps.takeWhile (· ≠ .compared false))

/-- The flags tell the value of a constraint. Of `must(e)` they do where no comparison is false,
or the last `must` within it before the first false one has the value; of the others a
false comparison in the condition stands for true, and otherwise the last `must` before the
first false comparison counts. -/
def Statement.Told (value : Bool) : Statement → Prop
  | .must requirement =>
    .compared false ∉ requirement.steps checker node ∨
      lastMust (requirement.steps checker node) = value
  | .ifThen condition consequence alternative =>
    (.compared false ∈ condition.steps checker node ∧ value = true) ∨
      (.compared false ∉ condition.steps checker node ∧
        lastMust (condition.steps checker node ++ consequence.requiredSteps checker node ++
          (alternative.map (Comparison.requiredSteps checker node)).getD []) = value)

end Logic

end FlexConfig.Constraint
