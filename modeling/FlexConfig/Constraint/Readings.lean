import FlexConfig.Constraint.Handlers
import FlexConfig.Foundation.PackratSimulation
import Mathlib.Data.List.TakeWhile

/-! # What is read of a constraint

The actions of the evaluator once more, without the two flags: every part of what
has been matched gets the value it stands for, and what the flags depend on is
written down in the order of matching. The flags are a function of these readings
(`validate_cases`), of which the conditions are told apart that make a constraint
pass (`passes_iff`).
-/

namespace FlexConfig.Constraint

open Peg Procedure

/-- What the flags depend on, in the order of matching: comparisons, `must` and what
it holds of, `then`, and the values that could not be computed. -/
inductive Reading where
  | compared (holds : Bool)
  | required (holds : Bool)
  | unrequired
  | thenReached
  | failed
  | raised
  deriving DecidableEq

/-- The value of a part, and what there is to note of it. -/
def noted (default : Any) : Answer Any → Any × List Reading
  | .ok value => (value, [])
  | .error .failed => (default, [.failed])
  | .error (.raised _) => (default, [.raised])

/-- The value of a comparison. -/
def comparedAs (vs : SemanticValues Any) : Any × List Reading :=
  match infixResult vs with
  | .ok result => (.bool result, [.compared result])
  | .error .failed => (.bool false, [.failed])
  | .error (.raised _) => (.bool false, [.raised])

/-- The value of a `must`. -/
def requiredAs (vs : SemanticValues Any) : Any × List Reading :=
  match valueAt vs 0 with
  | .bool result => (.bool result, [.required result])
  | _ => (.bool false, [.unrequired])

/-- The value of a rule that has an action, and what there is to note. -/
def readAs (checker : ConstraintChecker) (node : Location) (name : Rule) :
    Option (SemanticValues Any → Any × List Reading) :=
  match name with
  | .INFIX_EXPRESSION => some comparedAs
  | .MUST_FUNC => some requiredAs
  | .THEN_STATEMENT => some fun _ => (.empty, [.thenReached])
  | name => (handler checker node name).map fun entry vs => noted entry.1 (entry.2 vs)

/-- Answer with the value read and log what there is to note. -/
def logged (read : SemanticValues Any → Any × List Reading) (vs : SemanticValues Any) :
    EStateM PEmpty (List Reading) Any := fun log => .ok (read vs).1 (log ++ (read vs).2)

/-- Actions that compute values and keep a log. -/
def readingActions (checker : ConstraintChecker) (node : Location) :
    Actions Rule Any (List Reading) PEmpty where
  empty := .empty
  action name := (readAs checker node name).map logged

/-- The readings of a text, those of attempts that failed included. -/
def readings (checker : ConstraintChecker) (node : Location) (text : Str) : List Reading :=
  final (parse grammar (readingActions checker node) .PROGRAM text [])

/-- What a reading does to the flags: once processing has ended only a `then` does
anything. None are left by an exception. -/
def follow (pegArg : Argument) (reading : Reading) : Option Argument :=
  if pegArg.ContinueProcessing = false then
    some (if reading = .thenReached then { pegArg with ExpressionResult := true } else pegArg)
  else
    match reading with
    | .compared holds => some { pegArg with ContinueProcessing := holds }
    | .required holds => some { pegArg with ExpressionResult := holds }
    | .unrequired => some { ContinueProcessing := false, ExpressionResult := false }
    | .thenReached => some pegArg
    | .failed => some { pegArg with ExpressionResult := false }
    | .raised => none

/-- The flags after readings. -/
def flagsAfter (log : List Reading) : Option Argument := log.foldlM follow {}

theorem flagsAfter_append (log more : List Reading) :
    flagsAfter (log ++ more) = (flagsAfter log).bind fun pegArg => more.foldlM follow pegArg :=
  List.foldlM_append

section Step

/-- What an action does to the flags is what is read of it. While processing goes on
its value is the one read; afterwards it does not matter what it is given. -/
structure Obeys (act : SemanticValues Any → EStateM Halt Argument Any)
    (read : SemanticValues Any → Any × List Reading) : Prop where
  running : ∀ vs pegArg, pegArg.ContinueProcessing = true →
    match act vs pegArg with
    | .ok value next => value = (read vs).1 ∧ (read vs).2.foldlM follow pegArg = some next
    | .error _ _ => (read vs).2.foldlM follow pegArg = none
  stopped : ∀ vs ws pegArg, pegArg.ContinueProcessing = false →
    ∃ value next, act vs pegArg = .ok value next ∧ next.ContinueProcessing = false ∧
      (read ws).2.foldlM follow pegArg = some next

theorem action_obeys (default : Any) (handle : SemanticValues Any → Answer Any) :
    Obeys (action default handle) fun vs => noted default (handle vs) where
  running := by
    intro vs pegArg going
    unfold action
    rw [if_neg (by rw [going]; decide)]
    cases handle vs with
    | ok value => exact ⟨rfl, rfl⟩
    | error fault => cases fault <;> simp [noted, follow, going]
  stopped := by
    intro vs ws pegArg ended
    refine ⟨default, pegArg, if_pos ended, ended, ?_⟩
    cases handle ws with
    | ok value => rfl
    | error fault => cases fault <;> simp [noted, follow, ended]

theorem infix_obeys : Obeys InfixExpressionHandle comparedAs where
  running := by
    intro vs pegArg going
    unfold InfixExpressionHandle comparedAs
    rw [if_neg (by rw [going]; decide)]
    cases infixResult vs with
    | ok result => simp [follow, going]
    | error fault => cases fault <;> simp [follow, going]
  stopped := by
    intro vs ws pegArg ended
    refine ⟨_, pegArg, if_pos ended, ended, ?_⟩
    unfold comparedAs
    cases infixResult ws with
    | ok result => simp [follow, ended]
    | error fault => cases fault <;> simp [follow, ended]

theorem must_obeys : Obeys MustHandle requiredAs where
  running := by
    intro vs pegArg going
    unfold MustHandle requiredAs
    rw [if_neg (by rw [going]; decide)]
    cases valueAt vs 0 <;> simp [follow, going]
  stopped := by
    intro vs ws pegArg ended
    refine ⟨_, pegArg, if_pos ended, ended, ?_⟩
    unfold requiredAs
    cases valueAt ws 0 <;> simp [follow, ended]

theorem then_obeys : Obeys ThenStatementHandle fun _ => (.empty, [.thenReached]) where
  running := by
    intro vs pegArg going
    simp [ThenStatementHandle, follow, going]
  stopped := by
    intro vs ws pegArg ended
    refine ⟨_, _, rfl, ?_, ?_⟩
    · rw [if_pos ended]
      exact ended
    · simp [follow, ended]

/-- The evaluator has an action where something is read, and it obeys the reading. -/
theorem actions_obey (checker : ConstraintChecker) (node : Location) (name : Rule) :
    (∃ act read, (actions checker node).action name = some act ∧
      readAs checker node name = some read ∧ Obeys act read) ∨
    ((actions checker node).action name = none ∧ readAs checker node name = none) := by
  cases name with
  | INFIX_EXPRESSION => exact .inl ⟨_, _, rfl, rfl, infix_obeys⟩
  | MUST_FUNC => exact .inl ⟨_, _, rfl, rfl, must_obeys⟩
  | THEN_STATEMENT => exact .inl ⟨_, _, rfl, rfl, then_obeys⟩
  | _ => first | exact .inr ⟨rfl, rfl⟩ | exact .inl ⟨_, _, rfl, rfl, action_obeys _ _⟩

end Step

section Evaluation

variable (checker : ConstraintChecker) (node : Location)

theorem readingActions_action (name : Rule) :
    (readingActions checker node).action name = (readAs checker node name).map logged := rfl

theorem readingActions_reduce {name : Rule} {read : SemanticValues Any → Any × List Reading}
    (hasRead : readAs checker node name = some read) (vs : SemanticValues Any)
    (log : List Reading) :
    (readingActions checker node).reduce name vs log = .ok (read vs).1 (log ++ (read vs).2) := by
  unfold Actions.reduce
  rw [readingActions_action, hasRead]
  rfl

/-- The values of the evaluator are those read as long as processing goes on. -/
def SameWhileRunning (pegArg : Argument) (value read : Any) : Prop :=
  pegArg.ContinueProcessing = true → value = read

/-- The evaluator and the readings stay in step. -/
def evaluation : Simulation (actions checker node) (readingActions checker node) where
  states pegArg log := flagsAfter log = some pegArg
  values := SameWhileRunning
  broken log := flagsAfter log = none
  empty := fun _ _ => rfl
  keepsBroken := by
    intro name vs log broken
    cases hasRead : readAs checker node name with
    | some read =>
        rw [readingActions_reduce checker node hasRead, final_ok, flagsAfter_append, broken]
        rfl
    | none =>
        unfold Actions.reduce
        rw [readingActions_action, hasRead]
        exact broken
  step := by
    intro name vs ws pegArg log states values tokens sv
    rw [readingActions_action]
    rcases actions_obey checker node name with
      ⟨act, read, hasAct, hasRead, obeys⟩ | ⟨hasAct, hasRead⟩
    · rw [hasAct, hasRead, Option.map_some]
      have after : flagsAfter (log ++ (read ws).2) = (read ws).2.foldlM follow pegArg := by
        rw [flagsAfter_append, states]
        rfl
      dsimp only [logged]
      cases processing : pegArg.ContinueProcessing with
      | true =>
          have same : vs = ws := by
            have equal : List.Forall₂ (· = ·) vs.values ws.values :=
              List.Forall₂.imp (fun _ _ same => same processing) values
            rw [List.forall₂_eq_eq_eq] at equal
            cases vs
            cases ws
            cases equal
            cases tokens
            cases sv
            rfl
          have done := obeys.running vs pegArg processing
          rw [same] at done ⊢
          cases acted : act ws pegArg with
          | ok value next =>
              rw [acted] at done
              exact ⟨after.trans done.2, fun _ => done.1, fun _ _ kept _ => kept processing⟩
          | error reason next =>
              rw [acted] at done
              exact after.trans done
      | false =>
          obtain ⟨value, next, acted, ended, followed⟩ := obeys.stopped vs ws pegArg processing
          rw [acted]
          refine ⟨after.trans followed, fun going => ?_, fun _ _ _ going => ?_⟩
          · rw [ended] at going
            cases going
          · rw [ended] at going
            cases going
    · rw [hasAct, hasRead]
      trivial

/-- The flags are those that follow from the readings, and an exception leaves the
evaluator where it leaves them. -/
theorem validate_cases (text : Str) :
    (∃ pegArg, flagsAfter (readings checker node text) = some pegArg ∧
      checker.validate node text = .ok pegArg.ExpressionResult) ∨
    (flagsAfter (readings checker node text) = none ∧
      ∃ reason, checker.validate node text = .error reason) := by
  unfold readings ConstraintChecker.validate
  have start : (evaluation checker node).states {} [] := rfl
  rcases (evaluation checker node).parse (g := grammar) .PROGRAM text start with
    ⟨answer, pegArg, log, parsed, read, states⟩ |
    ⟨reason, pegArg, answer, log, parsed, read, broken⟩
  · rw [parsed, read]
    exact .inl ⟨pegArg, states, rfl⟩
  · rw [parsed, read]
    exact .inr ⟨broken, reason, rfl⟩

end Evaluation

section Verdict

/-- A reading that ends the processing. -/
def Reading.ends : Reading → Bool
  | .compared holds => !holds
  | .unrequired => true
  | _ => false

/-- A reading after which processing goes on. -/
def Reading.GoesOn (reading : Reading) : Prop := reading.ends = false ∧ reading ≠ .raised

instance (reading : Reading) : Decidable reading.GoesOn := inferInstanceAs (Decidable (_ ∧ _))

/-- What a reading makes of the result before it. -/
def Reading.result (before : Bool) : Reading → Bool
  | .required holds => holds
  | .failed => false
  | _ => before

/-- The result of the last `must` or failed value of readings, false where there is
none. -/
def standing (log : List Reading) : Bool := log.foldl Reading.result false

theorem standing_append (log more : List Reading) :
    standing (log ++ more) = more.foldl Reading.result (standing log) := List.foldl_append

/-- While processing goes on the result is the last one read. -/
theorem follow_running {log : List Reading} (goesOn : ∀ reading ∈ log, reading.GoesOn)
    (result : Bool) :
    log.foldlM follow ⟨true, result⟩ = some ⟨true, log.foldl Reading.result result⟩ := by
  induction log generalizing result with
  | nil => rfl
  | cons reading rest ih =>
      obtain ⟨here, there⟩ := List.forall_mem_cons.mp goesOn
      have step : follow ⟨true, result⟩ reading = some ⟨true, reading.result result⟩ := by
        cases reading with
        | compared holds =>
            cases holds with
            | true => rfl
            | false => exact absurd here.1 (by decide)
        | unrequired => exact absurd here.1 (by decide)
        | raised => exact absurd rfl here.2
        | _ => rfl
      rw [List.foldlM_cons, step]
      exact ih there _

/-- Once processing has ended only a `then` makes the result true. -/
theorem follow_ended (log : List Reading) (result : Bool) :
    log.foldlM follow ⟨false, result⟩ = some ⟨false, result || decide (.thenReached ∈ log)⟩ := by
  induction log generalizing result with
  | nil => simp
  | cons reading rest ih =>
      have step : follow ⟨false, result⟩ reading =
          some ⟨false, result || decide (reading = .thenReached)⟩ := by
        cases reading <;> simp [follow]
      rw [List.foldlM_cons, step]
      refine (ih _).trans ?_
      rw [Bool.or_assoc, ← Bool.decide_or]
      simp only [List.mem_cons, eq_comm]

/-- What the readings from the first on that ends the processing make of a result: a
`then` behind a false comparison, or behind a `must` of something that is not true or
false, makes it true. -/
def Verdict (result : Bool) : List Reading → Prop
  | [] => result = true
  | .compared false :: later => result = true ∨ .thenReached ∈ later
  | .unrequired :: later => .thenReached ∈ later
  | _ => False

/-- Readings that make a constraint pass. -/
def Passes (log : List Reading) : Prop :=
  ∃ going rest, log = going ++ rest ∧ (∀ reading ∈ going, reading.GoesOn) ∧
    Verdict (standing going) rest

/-- Readings are cut at the first that ends the processing or raises. -/
theorem exists_going (log : List Reading) :
    ∃ going rest, log = going ++ rest ∧ (∀ reading ∈ going, reading.GoesOn) ∧
      ∀ reading ∈ rest.head?, ¬ reading.GoesOn := by
  refine ⟨log.takeWhile (·.GoesOn), log.dropWhile (·.GoesOn),
    List.takeWhile_append_dropWhile.symm, fun reading member => ?_, fun reading member goesOn => ?_⟩
  · have going := List.mem_takeWhile_imp member
    exact of_decide_eq_true going
  have stopped := List.head?_dropWhile_not (fun reading : Reading => decide reading.GoesOn) log
  rw [Option.mem_def.mp member] at stopped
  simp only [decide_eq_false_iff_not] at stopped
  exact stopped goesOn

/-- The verdict on what comes when processing no longer goes on. -/
theorem ending_iff {result : Bool} {rest : List Reading}
    (stops : ∀ reading ∈ rest.head?, ¬ reading.GoesOn) :
    Verdict result rest ↔
      ∃ pegArg, rest.foldlM follow ⟨true, result⟩ = some pegArg ∧ pegArg.ExpressionResult = true := by
  cases rest with
  | nil => exact ⟨fun holds => ⟨_, rfl, holds⟩, fun ⟨_, same, holds⟩ => by cases same; exact holds⟩
  | cons reading later =>
      have stop : ¬ reading.GoesOn := stops reading rfl
      cases reading with
      | compared holds =>
          cases holds with
          | true => exact absurd (by decide) stop
          | false =>
              have folded : (Reading.compared false :: later).foldlM follow ⟨true, result⟩ =
                  later.foldlM follow ⟨false, result⟩ := rfl
              rw [folded, follow_ended]
              simp [Verdict]
      | unrequired =>
          have folded : (Reading.unrequired :: later).foldlM follow ⟨true, result⟩ =
              later.foldlM follow ⟨false, false⟩ := rfl
          rw [folded, follow_ended]
          simp [Verdict]
      | raised =>
          have folded : (Reading.raised :: later).foldlM follow ⟨true, result⟩ = none := rfl
          rw [folded]
          simp [Verdict]
      | required holds => exact absurd ⟨rfl, fun impossible => by cases impossible⟩ stop
      | thenReached => exact absurd (by decide) stop
      | failed => exact absurd (by decide) stop

theorem passes_iff (log : List Reading) :
    Passes log ↔ ∃ pegArg, flagsAfter log = some pegArg ∧ pegArg.ExpressionResult = true := by
  have flags : ∀ going rest, (∀ reading ∈ going, reading.GoesOn) →
      flagsAfter (going ++ rest) = rest.foldlM follow ⟨true, standing going⟩ := by
    intro going rest goesOn
    have first : flagsAfter going = some ⟨true, standing going⟩ := follow_running goesOn false
    rw [flagsAfter_append, first]
    rfl
  refine ⟨?_, fun passed => ?_⟩
  · rintro ⟨going, rest, rfl, goesOn, verdict⟩
    have stops : ∀ reading ∈ rest.head?, ¬ reading.GoesOn := by
      rintro reading member ⟨goes, _⟩
      cases rest with
      | nil => cases member
      | cons first later =>
          cases member
          cases reading with
          | compared holds =>
              cases holds with
              | true => exact verdict
              | false => cases goes
          | unrequired => cases goes
          | _ => exact verdict
    rw [flags going rest goesOn]
    exact (ending_iff stops).mp verdict
  · obtain ⟨going, rest, rfl, goesOn, stops⟩ := exists_going log
    rw [flags going rest goesOn] at passed
    exact ⟨going, rest, rfl, goesOn, (ending_iff stops).mpr passed⟩

end Verdict

end FlexConfig.Constraint
