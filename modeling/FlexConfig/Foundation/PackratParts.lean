import FlexConfig.Foundation.Packrat

/-! # The parts of a text that a parse completes

What a grammar tries at a text without remembering anything (`Attempts`), and the parts of the
text that are matched on the way, each rule tried at a text counted the first time only
(`Completes`). These are a matter of the grammar and the text. A packrat run completes exactly
these parts in this order, those of attempts that fail later included (`completes_of_parse`).
-/

namespace Peg

open Procedure

/-- A part of a text that a rule has matched: the parts with values in it, its tokens and its
text. -/
inductive Part (R : Type) where
  | mk (name : R) (parts : List (Part R)) (tokens : List Str) (sv : Str)

/-- What happens when something is tried: a rule is tried, with what happens in it and the part
it yields, or an operator and its operands are joined. -/
inductive Happening (R : Type) where
  | tried (name : R) (s : Str) (inside : List (Happening R)) (yielded : Option (Part R))
  | joined (part : Part R)

/-- What is tried: an expression at a text, or what follows the operands gathered so far. -/
inductive Task (R : Type) where
  | parse (expr : Expr R) (s : Str)
  | climb (name : R) (atom operator : Expr R) (start : Str) (left : Parsed (Part R))

section Attempts

variable {R : Type} (g : Grammar R)

/-- An operator and the operand on its right are joined with what is on its left. -/
def join (name : R) (start : Str) (left op right : Parsed (Part R)) : Part R :=
  .mk name (left.values ++ op.values.take 1 ++ right.values.take 1) left.tokens
    (consumed start right.rest)

/-- What happens when a task is tried, and what is gathered, nothing where it fails. -/
inductive Attempts : Task R → List (Happening R) → Option (Parsed (Part R)) → Prop where
  | literal {text s : Str} : Attempts (.parse (.literal text) s) []
      ((g.literalRest text s).map fun rest => ⟨rest, [], []⟩)
  | token {lexeme : Lexeme} {s : Str} : Attempts (.parse (.token lexeme) s) []
      ((lexeme.strip s).map fun rest => ⟨g.skip rest, [], [consumed s rest]⟩)
  | seq {first second : Expr R} {s : Str} {early late : List (Happening R)}
      {parsed : Parsed (Part R)} {following : Option (Parsed (Part R))} :
      Attempts (.parse first s) early (some parsed) →
        Attempts (.parse second parsed.rest) late following →
          Attempts (.parse (.seq first second) s) (early ++ late) (following.map parsed.append)
  | seq_fails {first second : Expr R} {s : Str} {early : List (Happening R)} :
      Attempts (.parse first s) early none → Attempts (.parse (.seq first second) s) early none
  | first {first second : Expr R} {s : Str} {early : List (Happening R)}
      {parsed : Parsed (Part R)} :
      Attempts (.parse first s) early (some parsed) →
        Attempts (.parse (.choice first second) s) early (some parsed)
  | second {first second : Expr R} {s : Str} {early late : List (Happening R)}
      {result : Option (Parsed (Part R))} :
      Attempts (.parse first s) early none → Attempts (.parse second s) late result →
        Attempts (.parse (.choice first second) s) (early ++ late) result
  | needed {min : Nat} {max : Option Nat} {body : Expr R} {s : Str}
      {early late : List (Happening R)} {parsed : Parsed (Part R)}
      {following : Option (Parsed (Part R))} :
      Attempts (.parse body s) early (some parsed) →
        Attempts (.parse (.rep min (max.map Nat.pred) body) parsed.rest) late following →
          Attempts (.parse (.rep (min + 1) max body) s) (early ++ late)
            (following.map parsed.append)
  | too_few {min : Nat} {max : Option Nat} {body : Expr R} {s : Str}
      {early : List (Happening R)} :
      Attempts (.parse body s) early none →
        Attempts (.parse (.rep (min + 1) max body) s) early none
  | full {body : Expr R} {s : Str} :
      Attempts (.parse (.rep 0 (some 0) body) s) [] (some ⟨s, [], []⟩)
  | more {max : Option Nat} {body : Expr R} {s : Str} {early late : List (Happening R)}
      {parsed : Parsed (Part R)} {following : Option (Parsed (Part R))} :
      max ≠ some 0 → Attempts (.parse body s) early (some parsed) →
        Attempts (.parse (.rep 0 (max.map Nat.pred) body) parsed.rest) late following →
          Attempts (.parse (.rep 0 max body) s) (early ++ late) (following.map parsed.append)
  | enough {max : Option Nat} {body : Expr R} {s : Str} {early : List (Happening R)} :
      max ≠ some 0 → Attempts (.parse body s) early none →
        Attempts (.parse (.rep 0 max body) s) early (some ⟨s, [], []⟩)
  | rule {name : R} {s : Str} {inside : List (Happening R)} {parsed : Parsed (Part R)} :
      Attempts (.parse (g.body name) s) inside (some parsed) →
        Attempts (.parse (.rule name) s)
          [.tried name s inside
            (some (.mk name parsed.values parsed.tokens (consumed s parsed.rest)))]
          (some ⟨parsed.rest,
            [.mk name parsed.values parsed.tokens (consumed s parsed.rest)], []⟩)
  | rule_fails {name : R} {s : Str} {inside : List (Happening R)} :
      Attempts (.parse (g.body name) s) inside none →
        Attempts (.parse (.rule name) s) [.tried name s inside none] none
  | chain {name : R} {atom operator : Expr R} {s : Str} {early late : List (Happening R)}
      {parsed : Parsed (Part R)} {result : Option (Parsed (Part R))} :
      Attempts (.parse atom s) early (some parsed) →
        Attempts (.climb name atom operator s parsed) late result →
          Attempts (.parse (.infixLeft name atom operator) s) (early ++ late) result
  | no_operand {name : R} {atom operator : Expr R} {s : Str} {early : List (Happening R)} :
      Attempts (.parse atom s) early none →
        Attempts (.parse (.infixLeft name atom operator) s) early none
  | at_end {name : R} {atom operator : Expr R} {start : Str} {left : Parsed (Part R)} :
      left.rest = [] → Attempts (.climb name atom operator start left) [] (some left)
  | no_operator {name : R} {atom operator : Expr R} {start : Str} {left : Parsed (Part R)}
      {early : List (Happening R)} :
      left.rest ≠ [] → Attempts (.parse operator left.rest) early none →
        Attempts (.climb name atom operator start left) early (some left)
  | operand_missing {name : R} {atom operator : Expr R} {start : Str}
      {left op : Parsed (Part R)} {early late : List (Happening R)} :
      left.rest ≠ [] → Attempts (.parse operator left.rest) early (some op) →
        Attempts (.parse atom op.rest) late none →
          Attempts (.climb name atom operator start left) (early ++ late) none
  | climb_to_end {name : R} {atom operator : Expr R} {start : Str}
      {left op right : Parsed (Part R)} {early late : List (Happening R)} :
      left.rest ≠ [] → Attempts (.parse operator left.rest) early (some op) →
        Attempts (.parse atom op.rest) late (some right) → right.rest = [] →
          Attempts (.climb name atom operator start left)
            (early ++ (late ++ [.joined (join name start left op right)]))
            (some ⟨right.rest, [join name start left op right], left.tokens⟩)
  | climb {name : R} {atom operator : Expr R} {start : Str} {left op right : Parsed (Part R)}
      {early late look others : List (Happening R)} {next result : Option (Parsed (Part R))} :
      left.rest ≠ [] → Attempts (.parse operator left.rest) early (some op) →
        Attempts (.parse atom op.rest) late (some right) → right.rest ≠ [] →
          Attempts (.parse operator right.rest) look next →
            Attempts (.climb name atom operator start
                ⟨right.rest, [join name start left op right], left.tokens⟩) others result →
              Attempts (.climb name atom operator start left)
                (early ++ (late ++ (look ++ .joined (join name start left op right) :: others)))
                result

variable {g} {task : Task R} {happened others : List (Happening R)}
  {result other : Option (Parsed (Part R))}

/-- There is one way in which a task goes. -/
theorem Attempts.unique (attempts : Attempts g task happened result)
    (again : Attempts g task others other) : happened = others ∧ result = other := by
  induction attempts generalizing others other with
  | literal | token | full => cases again <;> first | exact ⟨rfl, rfl⟩ | contradiction
  | seq _ _ firstIh secondIh =>
      cases again with
      | seq first second =>
          obtain ⟨rfl, ⟨⟩⟩ := firstIh first
          obtain ⟨rfl, rfl⟩ := secondIh second
          exact ⟨rfl, rfl⟩
      | seq_fails first => cases (firstIh first).2
  | seq_fails _ firstIh =>
      cases again with
      | seq first _ => cases (firstIh first).2
      | seq_fails first => exact ⟨(firstIh first).1, rfl⟩
  | first _ firstIh =>
      cases again with
      | first first => exact firstIh first
      | second first _ => cases (firstIh first).2
  | second _ _ firstIh secondIh =>
      cases again with
      | first first => cases (firstIh first).2
      | second first second =>
          obtain ⟨rfl, _⟩ := firstIh first
          obtain ⟨rfl, rfl⟩ := secondIh second
          exact ⟨rfl, rfl⟩
  | needed _ _ bodyIh restIh =>
      cases again with
      | needed body rest =>
          obtain ⟨rfl, ⟨⟩⟩ := bodyIh body
          obtain ⟨rfl, rfl⟩ := restIh rest
          exact ⟨rfl, rfl⟩
      | too_few body => cases (bodyIh body).2
  | too_few _ bodyIh =>
      cases again with
      | needed body _ => cases (bodyIh body).2
      | too_few body => exact ⟨(bodyIh body).1, rfl⟩
  | more bounded _ _ bodyIh restIh =>
      cases again with
      | full => exact absurd rfl bounded
      | more _ body rest =>
          obtain ⟨rfl, ⟨⟩⟩ := bodyIh body
          obtain ⟨rfl, rfl⟩ := restIh rest
          exact ⟨rfl, rfl⟩
      | enough _ body => cases (bodyIh body).2
  | enough bounded _ bodyIh =>
      cases again with
      | full => exact absurd rfl bounded
      | more _ body _ => cases (bodyIh body).2
      | enough _ body => exact ⟨(bodyIh body).1, rfl⟩
  | rule _ ih =>
      cases again with
      | rule body =>
          obtain ⟨rfl, ⟨⟩⟩ := ih body
          exact ⟨rfl, rfl⟩
      | rule_fails body => cases (ih body).2
  | rule_fails _ ih =>
      cases again with
      | rule body => cases (ih body).2
      | rule_fails body =>
          obtain ⟨rfl, _⟩ := ih body
          exact ⟨rfl, rfl⟩
  | chain _ _ atomIh climbIh =>
      cases again with
      | chain atom climb =>
          obtain ⟨rfl, ⟨⟩⟩ := atomIh atom
          obtain ⟨rfl, rfl⟩ := climbIh climb
          exact ⟨rfl, rfl⟩
      | no_operand atom => cases (atomIh atom).2
  | no_operand _ atomIh =>
      cases again with
      | chain atom _ => cases (atomIh atom).2
      | no_operand atom => exact ⟨(atomIh atom).1, rfl⟩
  | at_end ended =>
      cases again with
      | at_end => exact ⟨rfl, rfl⟩
      | no_operator nonempty | operand_missing nonempty | climb_to_end nonempty | climb nonempty =>
          exact absurd ended nonempty
  | no_operator nonempty _ operatorIh =>
      cases again with
      | at_end ended => exact absurd ended nonempty
      | no_operator _ operator => exact ⟨(operatorIh operator).1, rfl⟩
      | operand_missing _ operator | climb_to_end _ operator | climb _ operator =>
          cases (operatorIh operator).2
  | operand_missing nonempty _ _ operatorIh atomIh =>
      cases again with
      | at_end ended => exact absurd ended nonempty
      | no_operator _ operator => cases (operatorIh operator).2
      | operand_missing _ operator atom =>
          obtain ⟨rfl, ⟨⟩⟩ := operatorIh operator
          exact ⟨congrArg _ (atomIh atom).1, rfl⟩
      | climb_to_end _ operator atom | climb _ operator atom =>
          cases (operatorIh operator).2
          cases (atomIh atom).2
  | climb_to_end nonempty _ _ ended operatorIh atomIh =>
      cases again with
      | at_end stops => exact absurd stops nonempty
      | no_operator _ operator => cases (operatorIh operator).2
      | operand_missing _ operator atom =>
          cases (operatorIh operator).2
          cases (atomIh atom).2
      | climb_to_end _ operator atom =>
          obtain ⟨rfl, ⟨⟩⟩ := operatorIh operator
          obtain ⟨rfl, ⟨⟩⟩ := atomIh atom
          exact ⟨rfl, rfl⟩
      | climb _ operator atom goesOn =>
          cases (operatorIh operator).2
          cases (atomIh atom).2
          exact absurd ended goesOn
  | climb nonempty _ _ goesOn _ _ operatorIh atomIh lookIh climbIh =>
      cases again with
      | at_end ended => exact absurd ended nonempty
      | no_operator _ operator => cases (operatorIh operator).2
      | operand_missing _ operator atom =>
          cases (operatorIh operator).2
          cases (atomIh atom).2
      | climb_to_end _ operator atom ended =>
          cases (operatorIh operator).2
          cases (atomIh atom).2
          exact absurd ended goesOn
      | climb _ operator atom _ look climb =>
          obtain ⟨rfl, ⟨⟩⟩ := operatorIh operator
          obtain ⟨rfl, ⟨⟩⟩ := atomIh atom
          obtain ⟨rfl, _⟩ := lookIh look
          obtain ⟨rfl, rfl⟩ := climbIh climb
          exact ⟨rfl, rfl⟩

end Attempts

section Completions

variable {R : Type} [DecidableEq R]

mutual

/-- The parts that are completed, and the rules with the texts they have been tried at: what
happens in a rule that has been tried at the text before is left out. -/
def Happening.completed (seen : List (R × Str)) : Happening R → List (Part R) × List (R × Str)
  | .joined part => ([part], seen)
  | .tried name s inside yielded =>
    if (name, s) ∈ seen then ([], seen)
    else
      ((completedIn seen inside).1 ++ yielded.toList, (name, s) :: (completedIn seen inside).2)

def completedIn (seen : List (R × Str)) : List (Happening R) → List (Part R) × List (R × Str)
  | [] => ([], seen)
  | first :: rest =>
    ((first.completed seen).1 ++ (completedIn (first.completed seen).2 rest).1,
      (completedIn (first.completed seen).2 rest).2)

end

theorem completedIn_append (seen : List (R × Str)) (early late : List (Happening R)) :
    completedIn seen (early ++ late) =
      ((completedIn seen early).1 ++ (completedIn (completedIn seen early).2 late).1,
        (completedIn (completedIn seen early).2 late).2) := by
  induction early generalizing seen with
  | nil => rfl
  | cons first rest ih =>
      rw [List.cons_append, completedIn, completedIn, ih, List.append_assoc]

/-- The parts of a text that are completed where a rule is tried at it. -/
def Completes (g : Grammar R) (start : R) (text : Str) (parts : List (Part R)) : Prop :=
  ∃ happened result, Attempts g (.parse (.rule start) (g.skip text)) happened result ∧
    parts = (completedIn [] happened).1

variable {g : Grammar R} {start : R} {text : Str}

theorem Completes.unique {parts others : List (Part R)} (completes : Completes g start text parts)
    (again : Completes g start text others) : parts = others := by
  obtain ⟨happened, result, attempts, rfl⟩ := completes
  obtain ⟨_, _, attemptsAgain, rfl⟩ := again
  rw [(attempts.unique attemptsAgain).1]

end Completions

section Evaluation

variable {R V E ε : Type}

variable (reduce : R → SemanticValues V → V × List E)

mutual

/-- The value of a part, from those of the parts in it. -/
def Part.value : Part R → V
  | .mk name parts tokens sv => (reduce name ⟨Part.valuesOf parts, tokens, sv⟩).1

def Part.valuesOf : List (Part R) → List V
  | [] => []
  | part :: rest => part.value :: Part.valuesOf rest

end

/-- What is noted when a part is completed. -/
def Part.notes : Part R → List E
  | .mk name parts tokens sv => (reduce name ⟨Part.valuesOf reduce parts, tokens, sv⟩).2

/-- What is gathered, with values for the parts. -/
def Parsed.evaluate (parsed : Parsed (Part R)) : Parsed V :=
  ⟨parsed.rest, Part.valuesOf reduce parsed.values, parsed.tokens⟩

theorem valuesOf_append (early late : List (Part R)) :
    Part.valuesOf reduce (early ++ late) =
      Part.valuesOf reduce early ++ Part.valuesOf reduce late := by
  induction early with
  | nil => rfl
  | cons part rest ih => exact congrArg _ ih

theorem valuesOf_take_one (parts : List (Part R)) :
    Part.valuesOf reduce (parts.take 1) = (Part.valuesOf reduce parts).take 1 := by
  cases parts <;> rfl

theorem evaluate_append (parsed following : Parsed (Part R)) :
    (parsed.append following).evaluate reduce =
      (parsed.evaluate reduce).append (following.evaluate reduce) :=
  congrArg (Parsed.mk following.rest · _) (valuesOf_append reduce _ _)

theorem map_evaluate_append (parsed : Parsed (Part R)) (following : Option (Parsed (Part R))) :
    (following.map (Parsed.evaluate reduce)).map (parsed.evaluate reduce).append =
      (following.map parsed.append).map (Parsed.evaluate reduce) := by
  cases following with
  | none => rfl
  | some following => exact congrArg some (evaluate_append reduce parsed following).symm

/-- Actions that compute a value and note something at the end of a log. -/
def Computes (actions : Actions R V (List E) ε) : Prop :=
  ∀ name vs log, actions.reduce name vs log = .ok (reduce name vs).1 (log ++ (reduce name vs).2)

end Evaluation

section Runs

variable {R V E ε : Type} [DecidableEq R] {g : Grammar R} {actions : Actions R V (List E) ε}
  {reduce : R → SemanticValues V → V × List E} {fuel : Nat} {state : State R V (List E)}
  {seen : List (R × Str)}

/-- What is remembered is what has been tried, with what the grammar yields. -/
structure Knows (g : Grammar R) (reduce : R → SemanticValues V → V × List E)
    (state : State R V (List E)) (seen : List (R × Str)) : Prop where
  unknown : ∀ {name s}, state.cache name s = none → (name, s) ∉ seen
  known : ∀ {name s entry}, state.cache name s = some entry → (name, s) ∈ seen ∧
    ∃ happened result, Attempts g (.parse (.rule name) s) happened result ∧
      result.map (Parsed.evaluate reduce) = entry.map fun found => ⟨found.1, [found.2], []⟩

/-- A run yields what is gathered, notes the parts that are completed, and remembers what has been
tried. -/
def Notes (g : Grammar R) (reduce : R → SemanticValues V → V × List E) (task : Task R)
    (seen : List (R × Str)) (before : List E) (result : Option (Parsed V))
    (next : State R V (List E)) : Prop :=
  ∃ happened gathered, Attempts g task happened gathered ∧
    result = gathered.map (Parsed.evaluate reduce) ∧
      next.user = before ++ (completedIn seen happened).1.flatMap (Part.notes reduce) ∧
        Knows g reduce next (completedIn seen happened).2

theorem Knows.remember {name : R} {s : Str} {entry : Option (Str × V)}
    {happened : List (Happening R)} {result : Option (Parsed (Part R))} {user : List E}
    (knows : Knows g reduce state seen)
    (attempts : Attempts g (.parse (.rule name) s) happened result)
    (evaluates : result.map (Parsed.evaluate reduce) =
      entry.map fun found => ⟨found.1, [found.2], []⟩) :
    Knows g reduce
      ⟨user, fun other t => if other = name ∧ t = s then some entry else state.cache other t⟩
      ((name, s) :: seen) where
  unknown := by
    intro other t looked member
    dsimp only at looked
    split at looked
    · cases looked
    · next differs =>
      rcases List.mem_cons.mp member with same | earlier
      · cases same
        exact differs ⟨rfl, rfl⟩
      · exact knows.unknown looked earlier
  known := by
    intro other t found looked
    dsimp only at looked
    split at looked
    · next same =>
      obtain ⟨rfl, rfl⟩ := same
      cases looked
      exact ⟨List.mem_cons_self, happened, result, attempts, evaluates⟩
    · obtain ⟨member, rest⟩ := knows.known looked
      exact ⟨List.mem_cons_of_mem _ member, rest⟩

variable (g actions reduce) in
/-- What the runs with some fuel note. -/
def RunsNote (fuel : Nat) : Prop :=
  (∀ expr s state seen, Knows g reduce state seen →
    Meets (run g actions fuel expr s) state (Notes g reduce (.parse expr s) seen state.user)
      fun _ => True) ∧
  ∀ name atom operator start left state seen, Knows g reduce state seen →
    Meets (climb g actions fuel name atom operator start (left.evaluate reduce)) state
      (Notes g reduce (.climb name atom operator start left) seen state.user) fun _ => True

/-- What is noted of two tasks one after the other. -/
theorem Notes.trans {second whole : Task R} {before : List E} {following after : Option (Parsed V)}
    {between next : State R V (List E)} {early : List (Happening R)}
    (notes : Notes g reduce second (completedIn seen early).2 between.user following next)
    (user : between.user = before ++ (completedIn seen early).1.flatMap (Part.notes reduce))
    (build : ∀ late gathered, Attempts g second late gathered →
      following = gathered.map (Parsed.evaluate reduce) → ∃ whole_gathered,
        Attempts g whole (early ++ late) whole_gathered ∧
          after = whole_gathered.map (Parsed.evaluate reduce)) :
    Notes g reduce whole seen before after next := by
  obtain ⟨late, gathered, attempts, same, users, knows⟩ := notes
  obtain ⟨wholeGathered, wholeAttempts, wholeSame⟩ := build late gathered attempts same
  refine ⟨early ++ late, wholeGathered, wholeAttempts, wholeSame, ?_, ?_⟩
  · rw [completedIn_append, users, user, List.flatMap_append, List.append_assoc]
  · rw [completedIn_append]
    exact knows

/-- A second task whose parts are added to those of the first. -/
theorem Notes.appended {second whole : Task R} {before : List E} {following : Option (Parsed V)}
    {between next : State R V (List E)} {early : List (Happening R)} {parsed : Parsed (Part R)}
    (notes : Notes g reduce second (completedIn seen early).2 between.user following next)
    (user : between.user = before ++ (completedIn seen early).1.flatMap (Part.notes reduce))
    (build : ∀ late gathered, Attempts g second late gathered →
      Attempts g whole (early ++ late) (gathered.map parsed.append)) :
    Notes g reduce whole seen before (following.map (parsed.evaluate reduce).append) next := by
  refine notes.trans user fun late gathered attempts same => ⟨_, build late gathered attempts, ?_⟩
  rw [same, map_evaluate_append]

/-- A task that goes as a second one goes after a first. -/
theorem Notes.after {second whole : Task R} {before : List E} {following : Option (Parsed V)}
    {between next : State R V (List E)} {early : List (Happening R)}
    (notes : Notes g reduce second (completedIn seen early).2 between.user following next)
    (user : between.user = before ++ (completedIn seen early).1.flatMap (Part.notes reduce))
    (build : ∀ late gathered, Attempts g second late gathered →
      Attempts g whole (early ++ late) gathered) :
    Notes g reduce whole seen before following next :=
  notes.trans user fun late gathered attempts same => ⟨_, build late gathered attempts, same⟩

theorem meets_remember {α : Type} {name : R} {s : Str} {entry : Option (Str × V)} {value : α}
    {good : α → State R V (List E) → Prop} {bad : Stop ε → Prop}
    (holds : good value ⟨state.user,
      fun other t => if other = name ∧ t = s then some entry else state.cache other t⟩) :
    Meets (do
      remember name s entry
      return value) state good bad := holds

omit [DecidableEq R] in
theorem meets_invoke {α : Type} (computes : Computes reduce actions) {name : R}
    {vs : SemanticValues V} {body : V → Matching R V (List E) ε α}
    {good : α → State R V (List E) → Prop} {bad : Stop ε → Prop}
    (holds : Meets (body (reduce name vs).1)
      { state with user := state.user ++ (reduce name vs).2 } good bad) :
    Meets (do
      let value ← actions.invoke name vs
      body value) state good bad := by
  have invoked : actions.invoke name vs state =
      .ok (reduce name vs).1 { state with user := state.user ++ (reduce name vs).2 } := by
    unfold Actions.invoke
    rw [computes]
  rw [Meets, bind_of_ok invoked]
  exact holds

/-- What happens in a rule that has been tried before is left out. -/
theorem completedIn_of_seen {name : R} {s : Str} {happened : List (Happening R)}
    {result : Option (Parsed (Part R))} (member : (name, s) ∈ seen)
    (attempts : Attempts g (.parse (.rule name) s) happened result) :
    completedIn seen happened = ([], seen) := by
  cases attempts with
  | rule | rule_fails =>
      rw [completedIn, Happening.completed, if_pos member]
      rfl

theorem completedIn_of_new {name : R} {s : Str} (unseen : (name, s) ∉ seen)
    (inside : List (Happening R)) (yielded : Option (Part R)) :
    completedIn seen [.tried name s inside yielded] =
      ((completedIn seen inside).1 ++ yielded.toList, (name, s) :: (completedIn seen inside).2) := by
  rw [completedIn, Happening.completed, if_neg unseen, completedIn, List.append_nil]

theorem completedIn_joined (seen : List (R × Str)) (part : Part R) (others : List (Happening R)) :
    completedIn seen (.joined part :: others) =
      (part :: (completedIn seen others).1, (completedIn seen others).2) := rfl

theorem rule_notes (computes : Computes reduce actions) (runs : RunsNote g actions reduce fuel)
    (name : R) (s : Str) (knows : Knows g reduce state seen) :
    Meets (run g actions (fuel + 1) (.rule name) s) state
      (Notes g reduce (.parse (.rule name) s) seen state.user) fun _ => True := by
  rw [run, Meets, get_bind]
  cases looked : state.cache name s with
  | some entry =>
      obtain ⟨member, happened, result, attempts, evaluates⟩ := knows.known looked
      refine ⟨happened, result, attempts, evaluates.symm, ?_, ?_⟩
      · rw [completedIn_of_seen member attempts, List.flatMap_nil, List.append_nil]
      · rw [completedIn_of_seen member attempts]
        exact knows
  | none =>
      have unseen := knows.unknown looked
      refine meets_bind (runs.1 (g.body name) s state seen knows) ?_
      rintro _ between ⟨inside, _ | parsed, attempts, rfl, user, knowsBetween⟩
      · have fails : Attempts g (.parse (.rule name) s) [.tried name s inside none] none :=
          .rule_fails attempts
        refine meets_remember ⟨_, none, fails, rfl, ?_, ?_⟩
        · rw [completedIn_of_new unseen, user, Option.toList_none, List.append_nil]
        · rw [completedIn_of_new unseen]
          exact knowsBetween.remember fails rfl
      · let part : Part R := .mk name parsed.values parsed.tokens (consumed s parsed.rest)
        have yields : Attempts g (.parse (.rule name) s) [.tried name s inside (some part)]
          (some ⟨parsed.rest, [part], []⟩) := .rule attempts
        refine meets_invoke computes (meets_remember ⟨_, _, yields, rfl, ?_, ?_⟩)
        · rw [completedIn_of_new unseen, user, Option.toList_some, List.flatMap_append,
            List.flatMap_singleton, List.append_assoc]
          rfl
        · rw [completedIn_of_new unseen]
          have evaluates : (some (Parsed.mk parsed.rest [part] [])).map (Parsed.evaluate reduce) =
              (some (parsed.rest, part.value reduce)).map fun found => ⟨found.1, [found.2], []⟩ :=
            rfl
          exact knowsBetween.remember yields evaluates

theorem climb_notes (computes : Computes reduce actions) (runs : RunsNote g actions reduce fuel)
    (name : R) (atom operator : Expr R) (start : Str) (left : Parsed (Part R))
    (knows : Knows g reduce state seen) :
    Meets (climb g actions (fuel + 1) name atom operator start (left.evaluate reduce)) state
      (Notes g reduce (.climb name atom operator start left) seen state.user) fun _ => True := by
  have leftRest : (left.evaluate reduce).rest = left.rest := rfl
  rw [climb, leftRest]
  split
  · next ended =>
    exact meets_pure ⟨[], some left, .at_end ended, rfl, (List.append_nil _).symm, knows⟩
  next nonempty =>
  refine meets_bind (runs.1 operator left.rest state seen knows) ?_
  rintro _ between ⟨early, _ | op, operators, rfl, user, knowsOp⟩
  · exact meets_pure ⟨early, some left, .no_operator nonempty operators, rfl, user, knowsOp⟩
  refine meets_bind (runs.1 atom op.rest between _ knowsOp) ?_
  rintro _ at_ ⟨late, _ | right, operands, rfl, userRight, knowsRight⟩
  · have notes : Notes g reduce (.parse atom op.rest) (completedIn seen early).2 between.user none
      at_ := ⟨late, none, operands, rfl, userRight, knowsRight⟩
    refine meets_pure (notes.trans user fun others gathered operand same => ⟨none, ?_, rfl⟩)
    cases gathered with
    | none => exact .operand_missing nonempty operators operand
    | some => cases same
  let part := join name start left op right
  let next : Parsed (Part R) := ⟨right.rest, [part], left.tokens⟩
  have reduced : reduce name ⟨(left.evaluate reduce).values ++ (op.evaluate reduce).values.take 1 ++
      (right.evaluate reduce).values.take 1, (left.evaluate reduce).tokens,
        consumed start (right.evaluate reduce).rest⟩ = (part.value reduce, part.notes reduce) := by
    have values : (left.evaluate reduce).values ++ (op.evaluate reduce).values.take 1 ++
        (right.evaluate reduce).values.take 1 =
          Part.valuesOf reduce (left.values ++ op.values.take 1 ++ right.values.take 1) := by
      rw [valuesOf_append, valuesOf_append, valuesOf_take_one, valuesOf_take_one]
      rfl
    rw [values]
    rfl
  dsimp only [Option.map_some]
  by_cases ended : right.rest = []
  · have stop : (right.evaluate reduce).rest = [] := ended
    rw [if_pos stop, pure_bind]
    refine meets_invoke computes ?_
    rw [reduced]
    let noted : State R V (List E) := { at_ with user := at_.user ++ part.notes reduce }
    have knowsNoted : Knows g reduce noted (completedIn (completedIn seen early).2 late).2 :=
      ⟨knowsRight.unknown, knowsRight.known⟩
    refine (runs.2 name atom operator start next noted _ knowsNoted).imp ?_ fun _ _ => trivial
    rintro _ last ⟨others, gathered, climbs, rfl, userLast, knowsLast⟩
    have stops : others = [] ∧ gathered = some next := climbs.unique (.at_end ended)
    obtain ⟨rfl, rfl⟩ := stops
    refine ⟨_, _, .climb_to_end nonempty operators operands ended, rfl, ?_, ?_⟩
    · have userNoted : noted.user = at_.user ++ part.notes reduce := rfl
      rw [userLast, userNoted, completedIn_append, completedIn_append, completedIn_joined, userRight,
        user]
      simp only [completedIn, List.append_assoc, List.append_nil, List.flatMap_append,
        List.flatMap_cons, List.flatMap_nil, part]
    · rw [completedIn_append, completedIn_append, completedIn_joined]
      exact knowsLast
  · have goesOn : (right.evaluate reduce).rest ≠ [] := ended
    rw [if_neg goesOn]
    refine meets_bind (runs.1 operator right.rest at_ _ knowsRight) ?_
    rintro _ afterLook ⟨look, peeked, looks, rfl, userLook, knowsLook⟩
    refine meets_invoke computes ?_
    rw [reduced]
    let noted : State R V (List E) := { afterLook with user := afterLook.user ++ part.notes reduce }
    have knowsNoted : Knows g reduce noted
        (completedIn (completedIn (completedIn seen early).2 late).2 look).2 :=
      ⟨knowsLook.unknown, knowsLook.known⟩
    refine (runs.2 name atom operator start next noted _ knowsNoted).imp ?_ fun _ _ => trivial
    rintro _ last ⟨others, gathered, climbs, rfl, userLast, knowsLast⟩
    refine ⟨_, _, .climb nonempty operators operands ended looks climbs, rfl, ?_, ?_⟩
    · have userNoted : noted.user = afterLook.user ++ part.notes reduce := rfl
      rw [userLast, userNoted, completedIn_append, completedIn_append, completedIn_append,
        completedIn_joined, userLook, userRight, user]
      simp only [List.append_assoc, List.flatMap_append, List.flatMap_cons, part]
    · rw [completedIn_append, completedIn_append, completedIn_append, completedIn_joined]
      exact knowsLast

theorem runs_note (g : Grammar R) (computes : Computes reduce actions) (fuel : Nat) :
    RunsNote g actions reduce fuel := by
  induction fuel with
  | zero => exact ⟨fun _ _ _ _ _ => trivial, fun _ _ _ _ _ _ _ _ => trivial⟩
  | succ fuel ih =>
      refine ⟨fun expr s state seen knows => ?_, fun name atom operator start left state seen knows =>
        climb_notes computes ih name atom operator start left knows⟩
      cases expr with
      | literal text =>
          refine meets_pure ⟨[], _, .literal, ?_, (List.append_nil _).symm, knows⟩
          cases g.literalRest text s <;> rfl
      | token lexeme =>
          refine meets_pure ⟨[], _, .token, ?_, (List.append_nil _).symm, knows⟩
          cases lexeme.strip s <;> rfl
      | seq first second =>
          rw [run]
          refine meets_bind (ih.1 first s state seen knows) ?_
          rintro _ between ⟨early, _ | parsed, attempts, rfl, user, knowsBetween⟩
          · exact meets_pure ⟨early, none, .seq_fails attempts, rfl, user, knowsBetween⟩
          · refine meets_bind (ih.1 second parsed.rest between _ knowsBetween) ?_
            exact fun following last notes => meets_pure (notes.appended user fun late _ rest =>
              .seq attempts rest)
      | choice first second =>
          rw [run]
          refine meets_bind (ih.1 first s state seen knows) ?_
          rintro _ between ⟨early, _ | parsed, attempts, rfl, user, knowsBetween⟩
          · exact (ih.1 second s between _ knowsBetween).imp (fun _ _ notes =>
              notes.after user fun late _ rest => .second attempts rest) fun _ _ => trivial
          · exact meets_pure ⟨early, some parsed, .first attempts, rfl, user, knowsBetween⟩
      | rep min max body =>
          have once := ih.1 body s state seen knows
          cases min with
          | zero =>
              rw [run]
              split
              · next all =>
                rw [all]
                exact meets_pure ⟨[], _, .full, rfl, (List.append_nil _).symm, knows⟩
              · next bounded =>
                refine meets_bind once ?_
                rintro _ between ⟨early, _ | parsed, attempts, rfl, user, knowsBetween⟩
                · exact meets_pure ⟨early, _, .enough bounded attempts, rfl, user, knowsBetween⟩
                · refine meets_bind (ih.1 _ parsed.rest between _ knowsBetween) ?_
                  exact fun following last notes => meets_pure (notes.appended user
                    fun late _ rest => .more bounded attempts rest)
          | succ min =>
              rw [run]
              refine meets_bind once ?_
              rintro _ between ⟨early, _ | parsed, attempts, rfl, user, knowsBetween⟩
              · exact meets_pure ⟨early, none, .too_few attempts, rfl, user, knowsBetween⟩
              · refine meets_bind (ih.1 _ parsed.rest between _ knowsBetween) ?_
                exact fun following last notes => meets_pure (notes.appended user
                  fun late _ rest => .needed attempts rest)
      | rule name => exact rule_notes computes ih name s knows
      | infixLeft name atom operator =>
          rw [run]
          refine meets_bind (ih.1 atom s state seen knows) ?_
          rintro _ between ⟨early, _ | parsed, attempts, rfl, user, knowsBetween⟩
          · exact meets_pure ⟨early, none, .no_operand attempts, rfl, user, knowsBetween⟩
          · exact (ih.2 name atom operator s parsed between _ knowsBetween).imp (fun _ _ notes =>
              notes.after user fun late _ rest => .chain attempts rest) fun _ _ => trivial

/-- A parse notes the parts that are completed, unless an action raises. -/
theorem completes_of_parse (g : Grammar R) (start : R) (text : Str)
    {reduce : R → SemanticValues V → V × List E} {actions : Actions R V (List E) PEmpty}
    (computes : Computes reduce actions) :
    ∃ answer parts, parse g actions start text [] =
      .ok answer (parts.flatMap (Part.notes reduce)) ∧ Completes g start text parts := by
  have nothing : Knows g reduce (State.fresh [] : State R V (List E)) [] :=
    ⟨fun _ => List.not_mem_nil, fun looked => by cases looked⟩
  rcases parse_cases g actions start text [] with
    ⟨found, state, ran, ended, _⟩ | ⟨impossible, _⟩
  · have notes := (runs_note g computes (g.fuel text.length)).1 (.rule start) (g.skip text)
      (.fresh []) [] nothing
    rw [Meets, ran] at notes
    obtain ⟨happened, gathered, attempts, _, user, _⟩ := notes
    rw [user] at ended
    exact ⟨_, _, ended, happened, gathered, attempts, rfl⟩
  · exact impossible.elim

end Runs

end Peg
