import FlexConfig.Constraint.Evaluation

/-! # Constraints and their logic

When the two flags that are written while a constraint is parsed tell the value that the
constraint has by its logic.
-/

namespace FlexConfig.Constraint

variable {checker : ConstraintChecker} {node : Location}

section Flags

variable {value : Bool} {log : List Reading} {comparison : Comparison}

/-- Readings that are comparisons and `must`s. -/
def Settled (log : List Reading) : Prop :=
  ∀ reading ∈ log, (∃ holds, reading = .compared holds) ∨ ∃ holds, reading = .required holds

theorem Settled.append {more : List Reading} (settled : Settled log) (others : Settled more) :
    Settled (log ++ more) := by
  intro reading member
  rcases List.mem_append.mp member with first | second
  · exact settled reading first
  · exact others reading second

theorem settled_required (holds : Bool) : Settled [.required holds] := by
  intro reading member
  exact .inr ⟨holds, List.mem_singleton.mp member⟩

theorem settled_compared (holds : Bool) : Settled [.compared holds] := by
  intro reading member
  exact .inl ⟨holds, List.mem_singleton.mp member⟩

theorem settled_nil : Settled [] := fun _ impossible => nomatch impossible

mutual

theorem Operand.settled : ∀ {operand : Operand} {value : Any} {log : List Reading},
    operand.evaluate checker node = some (value, log) → Settled log
  | .must_func first others, value, log, has => by
      obtain ⟨left, leftHas, has⟩ := Option.bind_eq_some_iff.mp has
      obtain ⟨⟨result, more⟩, wholeHas, has⟩ := Option.bind_eq_some_iff.mp has
      cases result with
      | bool holds =>
          cases has
          exact ((Operand.settled leftHas).append (Operands.settled wholeHas)).append
            (settled_required holds)
      | empty | number | string | xpaths => cases has
  | .count_func call, value, log, has => by
      obtain ⟨_, _, has⟩ := Option.bind_eq_some_iff.mp has
      obtain ⟨_, _, has⟩ := Option.bind_eq_some_iff.mp has
      cases has
      exact settled_nil
  | .exists_func call, value, log, has => by
      obtain ⟨_, _, has⟩ := Option.bind_eq_some_iff.mp has
      obtain ⟨_, _, has⟩ := Option.bind_eq_some_iff.mp has
      cases has
      exact settled_nil
  | .path call, value, log, has => by
      obtain ⟨_, _, same⟩ := Option.map_eq_some_iff.mp has
      cases same
      exact settled_nil
  | .string content, value, log, has => by
      cases has
      exact settled_nil
  | .number token, value, log, has => by
      cases has
      exact settled_nil
  | .boolean token, value, log, has => by
      obtain ⟨_, _, same⟩ := Option.map_eq_some_iff.mp has
      cases same
      exact settled_nil

theorem Operands.settled : ∀ {others : Operands} {left value : Any} {log : List Reading},
    others.evaluate checker node left = some (value, log) → Settled log
  | .done, left, value, log, has => by
      cases has
      exact settled_nil
  | .next relator operand others, left, value, log, has => by
      obtain ⟨right, rightHas, has⟩ := Option.bind_eq_some_iff.mp has
      obtain ⟨holds, holdsHas, has⟩ := Option.bind_eq_some_iff.mp has
      obtain ⟨whole, wholeHas, same⟩ := Option.map_eq_some_iff.mp has
      cases same
      exact (Operand.settled rightHas).append
        ((settled_compared holds).append (Operands.settled wholeHas))

end

theorem Comparison.settled (has : comparison.value checker node = some value) :
    Settled (comparison.steps checker node) := by
  obtain ⟨left, leftHas, has⟩ := Option.bind_eq_some_iff.mp (Comparison.exists_steps has)
  obtain ⟨⟨result, more⟩, wholeHas, has⟩ := Option.bind_eq_some_iff.mp has
  cases result with
  | bool holds =>
      obtain ⟨_, same⟩ := Prod.mk.inj (Option.some.inj has)
      rw [← same]
      exact (Operand.settled leftHas).append (Operands.settled wholeHas)
  | empty | number | string | xpaths => cases has

theorem Comparison.requiredSteps_settled (has : comparison.value checker node = some value) :
    Settled (comparison.requiredSteps checker node) := by
  rw [Comparison.requiredSteps_of_value has]
  exact (Comparison.settled has).append (settled_required value)

/-- The result of comparisons and `must`s counts up to the first comparison that is false. -/
theorem follow_settled (settled : Settled log) (result : Bool) :
    log.foldlM follow ⟨true, result⟩ = some ⟨decide (.compared false ∉ log),
      (log.takeWhile (· ≠ .compared false)).foldl Reading.result result⟩ := by
  induction log generalizing result with
  | nil => rfl
  | cons reading rest ih =>
      have others : Settled rest := fun other member => settled other (List.mem_cons_of_mem _ member)
      by_cases ends : reading = .compared false
      · subst ends
        have noThen : .thenReached ∉ rest := by
          intro member
          rcases others _ member with ⟨_, impossible⟩ | ⟨_, impossible⟩ <;> cases impossible
        have step : follow ⟨true, result⟩ (.compared false) = some ⟨false, result⟩ := rfl
        rw [List.foldlM_cons, step]
        refine (follow_ended rest result).trans ?_
        simp [noThen]
      · have step : follow ⟨true, result⟩ reading = some ⟨true, reading.result result⟩ := by
          rcases settled reading List.mem_cons_self with ⟨holds, rfl⟩ | ⟨holds, rfl⟩
          · cases holds with
            | true => rfl
            | false => exact absurd rfl ends
          · rfl
        rw [List.foldlM_cons, step]
        refine (ih others _).trans ?_
        simp [ends, Ne.symm ends]

end Flags

section Told

variable {value : Bool} {text : Str} {statement : Statement} {steps more : List Reading}

/-- A false comparison hides what comes behind it. -/
theorem lastMust_append_of_mem (ended : .compared false ∈ steps) (more : List Reading) :
    lastMust (steps ++ more) = lastMust steps := by
  unfold lastMust
  rw [List.takeWhile_append, if_neg]
  intro whole
  have all := (List.takeWhile_prefix _).eq_of_length whole
  have going := List.mem_takeWhile_imp (all.symm ▸ ended)
  exact absurd rfl (of_decide_eq_true going)

theorem lastMust_append_of_notMem (going : .compared false ∉ steps) (more : List Reading) :
    lastMust (steps ++ more) =
      (more.takeWhile (· ≠ .compared false)).foldl Reading.result (standing steps) := by
  unfold lastMust
  rw [List.takeWhile_append_of_pos, standing_append]
  intro reading member
  exact decide_eq_true fun ends => going (ends ▸ member)

theorem lastMust_of_notMem (going : .compared false ∉ steps) : lastMust steps = standing steps := by
  have whole := lastMust_append_of_notMem going []
  rw [List.append_nil] at whole
  exact whole

/-- The flags of `must(e)`. -/
theorem flags_must {requirement : Comparison} (has : requirement.value checker node = some value) :
    ∃ going, flagsAfter (requirement.requiredSteps checker node) =
      some ⟨going, lastMust (requirement.steps checker node ++ [.required value])⟩ := by
  rw [← Comparison.requiredSteps_of_value has]
  exact ⟨_, follow_settled (Comparison.requiredSteps_settled has) false⟩

/-- The flags of a constraint with a condition. -/
theorem flags_ifThen (settled : Settled steps) (others : Settled more) :
    ∃ going, flagsAfter (steps ++ .thenReached :: more) =
      some ⟨going, if .compared false ∈ steps then true else lastMust (steps ++ more)⟩ := by
  have condition : flagsAfter steps = some ⟨decide (.compared false ∉ steps), lastMust steps⟩ :=
    follow_settled settled false
  rw [flagsAfter_append, condition, Option.bind_some]
  by_cases ended : .compared false ∈ steps
  · rw [if_pos ended, decide_eq_false (not_not.mpr ended), follow_ended]
    refine ⟨false, ?_⟩
    simp
  · rw [if_neg ended, decide_eq_true ended, lastMust_of_notMem ended,
      lastMust_append_of_notMem ended]
    exact ⟨_, follow_settled others _⟩

/-- What the validation of a written constraint answers. -/
theorem validate_of_flags {pegArg : Argument} (spelled : statement.Spelled text)
    (has : statement.value checker node = some value)
    (flags : flagsAfter (statement.steps checker node) = some pegArg) :
    checker.validate node text = .ok pegArg.ExpressionResult := by
  rw [← spelled.readings_eq has] at flags
  rcases validate_cases checker node text with ⟨other, flagsOther, validated⟩ | ⟨none, _⟩
  · cases flags.symm.trans flagsOther
    exact validated
  · cases flags.symm.trans none

/-- What the flags come to for a constraint that has a value. -/
def Statement.flagged (checker : ConstraintChecker) (node : Location) (value : Bool) :
    Statement → Bool
  | .must requirement => lastMust (requirement.steps checker node ++ [.required value])
  | .ifThen condition consequence alternative =>
    if .compared false ∈ condition.steps checker node then true
    else lastMust (condition.steps checker node ++ (consequence.requiredSteps checker node ++
      (alternative.map (Comparison.requiredSteps checker node)).getD []))

theorem Statement.Spelled.validate (spelled : statement.Spelled text)
    (has : statement.value checker node = some value) :
    checker.validate node text = .ok (statement.flagged checker node value) := by
  cases statement with
  | must requirement =>
      obtain ⟨going, flags⟩ := flags_must has
      exact validate_of_flags spelled has flags
  | ifThen condition consequence alternative =>
      obtain ⟨holds, necessary, conditionHas, consequenceHas, alternativeHas⟩ := ifThen_values has
      have others : Settled ((alternative.map (Comparison.requiredSteps checker node)).getD []) := by
        cases alternative with
        | none => exact settled_nil
        | some other =>
            obtain ⟨otherwise, otherHas⟩ := alternativeHas other rfl
            exact Comparison.requiredSteps_settled otherHas
      obtain ⟨going, flags⟩ := flags_ifThen (Comparison.settled conditionHas)
        ((Comparison.requiredSteps_settled consequenceHas).append others)
      exact validate_of_flags spelled has flags

/-- The flags tell the value where they come to it. -/
theorem Statement.told_iff :
    statement.Told checker node value ↔ statement.flagged checker node value = value := by
  cases statement with
  | must requirement =>
      unfold Statement.Told Statement.flagged
      dsimp only
      by_cases ended : .compared false ∈ requirement.steps checker node
      · rw [lastMust_append_of_mem ended]
        exact ⟨fun told => told.resolve_left (not_not.mpr ended), .inr⟩
      · rw [lastMust_append_of_notMem ended]
        exact ⟨fun _ => rfl, fun _ => .inl ended⟩
  | ifThen condition consequence alternative =>
      unfold Statement.Told Statement.flagged
      dsimp only
      rw [List.append_assoc]
      by_cases ended : .compared false ∈ condition.steps checker node
      · rw [if_pos ended]
        exact ⟨fun told => told.elim (fun here => here.2.symm) fun there => absurd ended there.1,
          fun told => .inl ⟨ended, told.symm⟩⟩
      · rw [if_neg ended]
        exact ⟨fun told => told.elim (fun here => absurd here.1 ended) fun there => there.2,
          fun told => .inr ⟨ended, told⟩⟩

/-- A constraint is answered with its value exactly when the flags tell it. -/
theorem validate_eq_value_iff (checker : ConstraintChecker) (node : Location)
    {statement : Statement} {text : Str} {value : Bool} (spelled : statement.Spelled text)
    (has : statement.value checker node = some value) :
    checker.validate node text = .ok value ↔ statement.Told checker node value := by
  rw [spelled.validate has, Except.ok.injEq, Statement.told_iff]

end Told

end FlexConfig.Constraint

namespace FlexConfig.Sample

open Constraint

/-- `1 == 1`. -/
def tautology : Comparison := ⟨.number "1".toList, .next .equal (.number "1".toList) .done⟩

/-- A single `true` or `false`. -/
def truth (token : String) : Comparison := ⟨.boolean token.toList, .done⟩

/-- What stands behind `else` is required beside what stands behind `then`. -/
theorem else_required_beside_then :
    (Statement.ifThen tautology (truth "false") (some (truth "true"))).Spelled
        "if (1 == 1) then must(false) else must(true)".toList ∧
      (Statement.ifThen tautology (truth "false") (some (truth "true"))).value lonelyChecker [] =
        some false ∧
      lonelyChecker.validate [] "if (1 == 1) then must(false) else must(true)".toList = .ok true := by
  refine ⟨?_, by decide +kernel, by decide +kernel⟩
  refine ⟨"(1 == 1) then must(false) else must(true)".toList,
    "1 == 1) then must(false) else must(true)".toList, ") then must(false) else must(true)".toList,
    "then must(false) else must(true)".toList, "must(false) else must(true)".toList,
    "else must(true)".toList, by decide, by decide, ?_, by decide, by decide, ?_,
    "must(true)".toList, by decide, ?_⟩
  · exact ⟨_, ⟨_, rfl, rfl, rfl⟩, _, _, ⟨_, rfl, rfl, rfl⟩, ⟨_, rfl, rfl, rfl⟩, rfl⟩
  · exact ⟨"(false) else must(true)".toList, "false) else must(true)".toList,
      ") else must(true)".toList, _, by decide, by decide, ⟨_, rfl, rfl, rfl⟩, rfl, by decide⟩
  · exact ⟨"(true)".toList, "true)".toList, ")".toList, _, by decide, by decide,
      ⟨_, rfl, rfl, rfl⟩, rfl, by decide⟩

/-- A `must` of a comparison that is true is answered with its value. -/
theorem tautology_required :
    lonelyChecker.validate [] "must(1 == 1)".toList = .ok true ↔
      (Statement.must tautology).Told lonelyChecker [] true := by
  refine validate_eq_value_iff lonelyChecker [] ?_ (by decide +kernel)
  exact ⟨"(1 == 1)".toList, "1 == 1)".toList, "== 1)".toList, ")".toList, by decide, by decide,
    ⟨_, rfl, rfl, rfl⟩, ⟨_, _, ⟨_, rfl, rfl, rfl⟩, ⟨_, rfl, rfl, rfl⟩, rfl⟩, by decide⟩

end FlexConfig.Sample
