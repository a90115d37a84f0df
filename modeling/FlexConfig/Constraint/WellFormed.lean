import FlexConfig.Constraint.Readings
import FlexConfig.Foundation.PackratParts

/-! # Well-formed constraints

The sentences of the grammar, and when nothing but sentences is accepted. The evaluator asks the
flags and not the parser, so that a text that is no sentence passes if the parts of it that the
grammar completes do. Which parts these are is a matter of the text (`Completes`), and their
comparisons and `must`s have the values of their operands.
-/

namespace FlexConfig.Constraint

open Peg Procedure

/-- A sentence: all of the text is a `PROGRAM`. -/
def Sentence (text : Str) : Prop :=
  Matches grammar (.parse (.rule .PROGRAM)) (grammar.skip text) (some [])

/-- Actions that do nothing. -/
def silent : Actions Rule Unit Unit PEmpty where
  empty := ()
  action _ := none

/-- The parser's own answer. -/
def recognised (text : Str) : Bool :=
  match parse grammar silent .PROGRAM text () with
  | .ok answer _ => answer
  | .error impossible _ => impossible.elim

theorem recognised_iff (text : Str) : recognised text = true ↔ Sentence text := by
  obtain ⟨answer, next, parsed⟩ := parse_total (g := grammar) silent .PROGRAM text ()
  unfold recognised
  rw [parsed]
  exact parse_eq_ok parsed

instance (text : Str) : Decidable (Sentence text) := decidable_of_iff _ (recognised_iff text)

section Parts

variable (checker : ConstraintChecker) (node : Location)

/-- What is read of a part of a rule; without an action its value is the first one in it. -/
def readPart (name : Rule) (vs : SemanticValues Any) : Any × List Reading :=
  match readAs checker node name with
  | some read => read vs
  | none => (vs.values.head?.getD .empty, [])

/-- The comparisons, `must`s and `then`s among parts of a constraint, and the values that could not
be computed. -/
def readingsOf (parts : List (Peg.Part Rule)) : List Reading :=
  parts.flatMap (Part.notes (readPart checker node))

theorem computes_readPart : Computes (readPart checker node) (readingActions checker node) := by
  intro name vs log
  unfold readPart
  cases hasRead : readAs checker node name with
  | some read => exact readingActions_reduce checker node hasRead vs log
  | none =>
      unfold Actions.reduce
      rw [readingActions_action, hasRead, List.append_nil]
      rfl

/-- What is read of a text is what is read of the parts that the grammar completes in it. -/
theorem exists_completes (text : Str) :
    ∃ parts, Completes grammar .PROGRAM text parts ∧
      readings checker node text = readingsOf checker node parts := by
  obtain ⟨answer, parts, parsed, completes⟩ :=
    completes_of_parse grammar .PROGRAM text (computes_readPart checker node)
  refine ⟨parts, completes, ?_⟩
  unfold readings
  rw [parsed]
  rfl

/-- A constraint is accepted exactly when the parts that the grammar completes in it pass, be it a
sentence or not. -/
theorem validate_iff_passes (text : Str) :
    checker.validate node text = .ok true ↔
      ∃ parts, Completes grammar .PROGRAM text parts ∧ Passes (readingsOf checker node parts) := by
  obtain ⟨parts, completes, read⟩ := exists_completes checker node text
  have passes : Passes (readings checker node text) ↔ ∃ parts,
      Completes grammar .PROGRAM text parts ∧ Passes (readingsOf checker node parts) := by
    rw [read]
    exact ⟨fun passes => ⟨parts, completes, passes⟩,
      fun ⟨_, again, passes⟩ => completes.unique again ▸ passes⟩
  rw [← passes, passes_iff]
  rcases validate_cases checker node text with ⟨pegArg, flags, validated⟩ | ⟨flags, reason, validated⟩
  · rw [validated, flags]
    simp
  · rw [validated, flags]
    simp

/-- Only a sentence is accepted exactly when the text is one, or when the parts that the grammar
completes in it do not pass. -/
theorem accepted_sentence_iff (text : Str) :
    (checker.validate node text = .ok true → Sentence text) ↔
      (Sentence text ∨ ∃ parts, Completes grammar .PROGRAM text parts ∧
        ¬ Passes (readingsOf checker node parts)) := by
  obtain ⟨parts, completes, _⟩ := exists_completes checker node text
  have only : (∃ parts, Completes grammar .PROGRAM text parts ∧
      ¬ Passes (readingsOf checker node parts)) ↔ ¬ Passes (readingsOf checker node parts) :=
    ⟨fun ⟨_, again, fails⟩ => completes.unique again ▸ fails, fun fails => ⟨parts, completes, fails⟩⟩
  have passes : checker.validate node text = .ok true ↔ Passes (readingsOf checker node parts) := by
    rw [validate_iff_passes]
    exact ⟨fun ⟨_, again, passes⟩ => completes.unique again ▸ passes,
      fun passes => ⟨parts, completes, passes⟩⟩
  rw [only, passes]
  by_cases holds : Passes (readingsOf checker node parts)
  · simp only [holds, forall_const, not_true_eq_false, or_false]
  · simp only [holds, IsEmpty.forall_iff, not_false_eq_true, or_true]

end Parts

end FlexConfig.Constraint

namespace FlexConfig.Sample

open Constraint

/-- A checker over an empty tree. -/
def lonelyChecker : ConstraintChecker where
  config_mngr := {
    jschema := .object []
    validate := fun _ _ => true
    regexMatch := fun _ _ => some false
    checkConstraint := fun _ _ _ => .ok true
    answers := fun _ => true }
  regexSearch := fun _ _ => none
  root_config := .composite []

/-- Trailing text does not keep a constraint from being accepted. -/
theorem trailing_text_accepted :
    lonelyChecker.validate [] "must(true) xyz".toList = .ok true ∧
      ¬ Sentence "must(true) xyz".toList := by
  decide +kernel

end FlexConfig.Sample
