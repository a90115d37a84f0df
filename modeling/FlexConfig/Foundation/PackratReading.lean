import FlexConfig.Foundation.Packrat

/-! # Reading a text of which the structure is known

Rules for packrat runs over texts whose parts are known: an attempt that fails at
its first tokens does nothing but remember the failure (`FailsAt.runs`), and a part
that is read once leaves its entries in the log of the actions and nothing behind
it touched (`Reads`). The rules follow the expressions, those for infix expressions
the operators from left to right.
-/

namespace Peg

open Procedure

section Fuel

variable {ε σ α β : Type}

/-- A computation that does what another does unless that one runs out of fuel. -/
def Extends (more less : EStateM (Stop ε) σ α) : Prop :=
  ∀ state, less state = more state ∨ ∃ next, less state = .error .outOfFuel next

theorem extends_refl (body : EStateM (Stop ε) σ α) : Extends body body := fun _ => .inl rfl

theorem extends_bind {more less : EStateM (Stop ε) σ α} {next nextLess : α → EStateM (Stop ε) σ β}
    (first : Extends more less) (second : ∀ value, Extends (next value) (nextLess value)) :
    Extends (more >>= next) (less >>= nextLess) := by
  intro state
  rcases first state with same | ⟨between, out⟩
  · cases ran : less state with
    | ok value between =>
        rw [bind_of_ok ran, bind_of_ok (same.symm.trans ran)]
        exact second value between
    | error stop between =>
        rw [bind_of_error ran, bind_of_error (same.symm.trans ran)]
        exact .inl rfl
  · rw [bind_of_error out]
    exact .inr ⟨between, rfl⟩

variable {R V : Type} [DecidableEq R] {g : Grammar R} {actions : Actions R V σ ε}

/-- More fuel changes nothing but a shortage of fuel. -/
theorem run_extends (fuel : Nat) :
    (∀ expr s, Extends (run g actions (fuel + 1) expr s) (run g actions fuel expr s)) ∧
      ∀ name atom operator start left,
        Extends (climb g actions (fuel + 1) name atom operator start left)
          (climb g actions fuel name atom operator start left) := by
  induction fuel with
  | zero => exact ⟨fun _ _ state => .inr ⟨state, rfl⟩, fun _ _ _ _ _ state => .inr ⟨state, rfl⟩⟩
  | succ fuel ih =>
      obtain ⟨runs, climbs⟩ := ih
      have followed : ∀ (parsed : Parsed V) expr s, Extends
          (do
            let following ← run g actions (fuel + 1) expr s
            return following.map parsed.append)
          (do
            let following ← run g actions fuel expr s
            return following.map parsed.append) :=
        fun parsed expr s => extends_bind (runs expr s) fun _ => extends_refl _
      refine ⟨fun expr s => ?_, fun name atom operator start left => ?_⟩
      · cases expr with
        | literal text => exact extends_refl _
        | token lexeme => exact extends_refl _
        | seq first second =>
            refine extends_bind (runs first s) fun result => ?_
            cases result with
            | none => exact extends_refl _
            | some parsed => exact followed parsed second _
        | choice first second =>
            refine extends_bind (runs first s) fun result => ?_
            cases result with
            | none => exact runs second s
            | some parsed => exact extends_refl _
        | rep min max body =>
            cases min with
            | zero =>
                rw [run, run]
                split
                · exact extends_refl _
                · refine extends_bind (runs body s) fun result => ?_
                  cases result with
                  | none => exact extends_refl _
                  | some parsed => exact followed parsed _ _
            | succ min =>
                refine extends_bind (runs body s) fun result => ?_
                cases result with
                | none => exact extends_refl _
                | some parsed => exact followed parsed _ _
        | rule name =>
            refine extends_bind (extends_refl _) fun (state : State R V σ) => ?_
            cases state.cache name s with
            | some entry => exact extends_refl _
            | none =>
                refine extends_bind (runs (g.body name) s) fun result => ?_
                cases result <;> exact extends_refl _
        | infixLeft name atom operator =>
            refine extends_bind (runs atom s) fun result => ?_
            cases result with
            | none => exact extends_refl _
            | some parsed => exact climbs _ _ _ _ _
      · rw [climb, climb]
        split
        · exact extends_refl _
        · refine extends_bind (runs operator left.rest) fun result => ?_
          cases result with
          | none => exact extends_refl _
          | some op =>
              refine extends_bind (runs atom op.rest) fun result => ?_
              cases result with
              | none => exact extends_refl _
              | some right =>
                  refine extends_bind ?_ fun _ => ?_
                  · split
                    · exact extends_refl _
                    · exact runs operator right.rest
                  · exact extends_bind (extends_refl _) fun _ => climbs _ _ _ _ _

/-- More fuel changes nothing but a shortage of fuel, however much more. -/
theorem run_stable {fuel more : Nat} (le : fuel ≤ more) (expr : Expr R) (s : Str) :
    Extends (run g actions more expr s) (run g actions fuel expr s) := by
  intro state
  induction le with
  | refl => exact .inl rfl
  | step _ ih =>
      rcases ih with same | out
      · rcases (run_extends _).1 expr s state with further | ⟨next, out⟩
        · exact .inl (same.trans further)
        · exact .inr ⟨next, same.trans out⟩
      · exact .inr out

theorem run_mono {fuel more : Nat} (le : fuel ≤ more) {expr : Expr R} {s : Str}
    {state next : State R V σ} {result : Option (Parsed V)}
    (ran : run g actions fuel expr s state = .ok result next) :
    run g actions more expr s state = .ok result next := by
  rcases run_stable le expr s state with same | ⟨_, out⟩
  · exact same.symm.trans ran
  · cases ran.symm.trans out

theorem climb_mono {fuel more : Nat} (le : fuel ≤ more) {name : R} {atom operator : Expr R}
    {start : Str} {left : Parsed V} {state next : State R V σ} {result : Option (Parsed V)}
    (ran : climb g actions fuel name atom operator start left state = .ok result next) :
    climb g actions more name atom operator start left state = .ok result next := by
  induction le with
  | refl => exact ran
  | step _ ih =>
      rcases (run_extends _).2 name atom operator start left state with same | ⟨_, out⟩
      · exact same.symm.trans ih
      · cases ih.symm.trans out

end Fuel

section Runs

variable {R V σ ε : Type} [DecidableEq R] (g : Grammar R) (actions : Actions R V σ ε)

/-- A run with enough fuel. -/
def Runs (expr : Expr R) (s : Str) (state next : State R V σ) (result : Option (Parsed V)) :
    Prop :=
  ∃ fuel, run g actions fuel expr s state = .ok result next

/-- A climb with enough fuel. -/
def Climbs (name : R) (atom operator : Expr R) (start : Str) (left : Parsed V)
    (state next : State R V σ) (result : Option (Parsed V)) : Prop :=
  ∃ fuel, climb g actions fuel name atom operator start left state = .ok result next

variable {g actions} {expr first second body atom operator : Expr R} {name : R}
  {s start : Str} {state between next last : State R V σ} {parsed left right op : Parsed V}
  {result : Option (Parsed V)}

/-- A run ends in a sound state and says what the grammar says. -/
theorem Runs.tells (runs : Runs g actions expr s state next result) (sound : CacheSound g state) :
    Says g (.parse expr) s result next := by
  obtain ⟨fuel, ran⟩ := runs
  have said := (runs_say g actions fuel).1 expr s state sound
  unfold Meets at said
  rw [ran] at said
  exact said

theorem runs_literal (text s : Str) (state : State R V σ) :
    Runs g actions (.literal text) s state state
      ((g.literalRest text s).map fun rest => ⟨rest, [], []⟩) := ⟨1, rfl⟩

theorem runs_token (lexeme : Lexeme) (s : Str) (state : State R V σ) :
    Runs g actions (.token lexeme) s state state
      ((lexeme.strip s).map fun rest => ⟨g.skip rest, [], [consumed s rest]⟩) := ⟨1, rfl⟩

theorem runs_seq (one : Runs g actions first s state between (some parsed))
    (two : Runs g actions second parsed.rest between next result) :
    Runs g actions (.seq first second) s state next (result.map parsed.append) := by
  obtain ⟨fuelOne, ranOne⟩ := one
  obtain ⟨fuelTwo, ranTwo⟩ := two
  refine ⟨max fuelOne fuelTwo + 1, ?_⟩
  rw [run, bind_of_ok (run_mono (Nat.le_max_left _ _) ranOne)]
  exact bind_of_ok (run_mono (Nat.le_max_right _ _) ranTwo)

theorem runs_seq_fails (one : Runs g actions first s state next none) :
    Runs g actions (.seq first second) s state next none := by
  obtain ⟨fuel, ran⟩ := one
  refine ⟨fuel + 1, ?_⟩
  rw [run, bind_of_ok ran]
  rfl

theorem runs_first (one : Runs g actions first s state next (some parsed)) :
    Runs g actions (.choice first second) s state next (some parsed) := by
  obtain ⟨fuel, ran⟩ := one
  refine ⟨fuel + 1, ?_⟩
  rw [run, bind_of_ok ran]
  rfl

theorem runs_second (one : Runs g actions first s state between none)
    (two : Runs g actions second s between next result) :
    Runs g actions (.choice first second) s state next result := by
  obtain ⟨fuelOne, ranOne⟩ := one
  obtain ⟨fuelTwo, ranTwo⟩ := two
  refine ⟨max fuelOne fuelTwo + 1, ?_⟩
  rw [run, bind_of_ok (run_mono (Nat.le_max_left _ _) ranOne)]
  exact run_mono (Nat.le_max_right _ _) ranTwo

theorem runs_rep_full (s : Str) (state : State R V σ) :
    Runs g actions (.rep 0 (some 0) body) s state state (some ⟨s, [], []⟩) := ⟨1, rfl⟩

theorem runs_rep_enough {most : Option Nat} (bounded : most ≠ some 0)
    (one : Runs g actions body s state next none) :
    Runs g actions (.rep 0 most body) s state next (some ⟨s, [], []⟩) := by
  obtain ⟨fuel, ran⟩ := one
  refine ⟨fuel + 1, ?_⟩
  rw [run, if_neg bounded, bind_of_ok ran]
  rfl

theorem runs_rep_more {most : Option Nat} (bounded : most ≠ some 0)
    (one : Runs g actions body s state between (some parsed))
    (two : Runs g actions (.rep 0 (most.map Nat.pred) body) parsed.rest between next result) :
    Runs g actions (.rep 0 most body) s state next (result.map parsed.append) := by
  obtain ⟨fuelOne, ranOne⟩ := one
  obtain ⟨fuelTwo, ranTwo⟩ := two
  refine ⟨max fuelOne fuelTwo + 1, ?_⟩
  rw [run, if_neg bounded, bind_of_ok (run_mono (Nat.le_max_left _ _) ranOne)]
  exact bind_of_ok (run_mono (Nat.le_max_right _ _) ranTwo)

theorem runs_rep_needed {least : Nat} {most : Option Nat}
    (one : Runs g actions body s state between (some parsed))
    (two : Runs g actions (.rep least (most.map Nat.pred) body) parsed.rest between next result) :
    Runs g actions (.rep (least + 1) most body) s state next (result.map parsed.append) := by
  obtain ⟨fuelOne, ranOne⟩ := one
  obtain ⟨fuelTwo, ranTwo⟩ := two
  refine ⟨max fuelOne fuelTwo + 1, ?_⟩
  rw [run, bind_of_ok (run_mono (Nat.le_max_left _ _) ranOne)]
  exact bind_of_ok (run_mono (Nat.le_max_right _ _) ranTwo)

/-- The state after remembering something. -/
def State.remembering (state : State R V σ) (name : R) (s : Str) (entry : Option (Str × V)) :
    State R V σ :=
  { state with
    cache := fun other t => if other = name ∧ t = s then some entry else state.cache other t }

theorem runs_remembered {entry : Option (Str × V)} (looked : state.cache name s = some entry) :
    Runs g actions (.rule name) s state state
      (entry.map fun found => ⟨found.1, [found.2], []⟩) := by
  refine ⟨1, ?_⟩
  rw [run, get_bind, looked]
  rfl

theorem runs_rule_fails (looked : state.cache name s = none)
    (tried : Runs g actions (g.body name) s state next none) :
    Runs g actions (.rule name) s state (next.remembering name s none) none := by
  obtain ⟨fuel, ran⟩ := tried
  refine ⟨fuel + 1, ?_⟩
  rw [run, get_bind, looked]
  dsimp only
  rw [bind_of_ok ran]
  rfl

theorem runs_rule {value : V} {user : σ} (looked : state.cache name s = none)
    (tried : Runs g actions (g.body name) s state next (some parsed))
    (reduced : actions.reduce name
      ⟨parsed.values, parsed.tokens, consumed s parsed.rest⟩ next.user = .ok value user) :
    Runs g actions (.rule name) s state
      (State.remembering { next with user := user } name s (some (parsed.rest, value)))
      (some ⟨parsed.rest, [value], []⟩) := by
  obtain ⟨fuel, ran⟩ := tried
  have invoked : actions.invoke name ⟨parsed.values, parsed.tokens, consumed s parsed.rest⟩ next =
      .ok value { next with user := user } := by
    unfold Actions.invoke
    rw [reduced]
  refine ⟨fuel + 1, ?_⟩
  rw [run, get_bind, looked]
  dsimp only
  rw [bind_of_ok ran]
  dsimp only
  rw [bind_of_ok invoked]
  rfl

/-- A rule that has matched is remembered. -/
theorem Runs.remembers {rest : Str} {value : V}
    (runs : Runs g actions (.rule name) s state next (some ⟨rest, [value], []⟩)) :
    next.cache name s = some (some (rest, value)) := by
  obtain ⟨fuel, ran⟩ := runs
  cases fuel with
  | zero => cases ran
  | succ fuel =>
      rw [run, get_bind] at ran
      cases looked : state.cache name s with
      | some entry =>
          rw [looked] at ran
          cases entry with
          | none => cases ran
          | some found =>
              cases ran
              exact looked
      | none =>
          rw [looked] at ran
          obtain ⟨found, between, _, rest_⟩ := bind_eq_ok.mp ran
          cases found with
          | none =>
              obtain ⟨_, _, _, impossible⟩ := bind_eq_ok.mp rest_
              cases impossible
          | some parsed =>
              obtain ⟨found, _, _, remembered⟩ := bind_eq_ok.mp rest_
              cases remembered
              exact if_pos ⟨rfl, rfl⟩

theorem runs_infix (one : Runs g actions atom s state between (some left))
    (two : Climbs g actions name atom operator s left between next result) :
    Runs g actions (.infixLeft name atom operator) s state next result := by
  obtain ⟨fuelOne, ranOne⟩ := one
  obtain ⟨fuelTwo, ranTwo⟩ := two
  refine ⟨max fuelOne fuelTwo + 1, ?_⟩
  rw [run, bind_of_ok (run_mono (Nat.le_max_left _ _) ranOne)]
  exact climb_mono (Nat.le_max_right _ _) ranTwo

theorem climbs_end (ended : left.rest = []) :
    Climbs g actions name atom operator start left state state (some left) := by
  refine ⟨1, ?_⟩
  rw [climb, if_pos ended]
  rfl

theorem climbs_no_operator (nonempty : left.rest ≠ [])
    (one : Runs g actions operator left.rest state next none) :
    Climbs g actions name atom operator start left state next (some left) := by
  obtain ⟨fuel, ran⟩ := one
  refine ⟨fuel + 1, ?_⟩
  rw [climb, if_neg nonempty, bind_of_ok ran]
  rfl

/-- The look for an operator behind an operand. -/
def LooksOn (g : Grammar R) (actions : Actions R V σ ε) (operator : Expr R) (s : Str)
    (state next : State R V σ) : Prop :=
  (s = [] ∧ next = state) ∨ (s ≠ [] ∧ ∃ result, Runs g actions operator s state next result)

theorem climbs_on {peeked : State R V σ} {value : V} {user : σ} (nonempty : left.rest ≠ [])
    (one : Runs g actions operator left.rest state between (some op))
    (two : Runs g actions atom op.rest between next (some right))
    (look : LooksOn g actions operator right.rest next peeked)
    (reduced : actions.reduce name ⟨left.values ++ op.values.take 1 ++ right.values.take 1,
      left.tokens, consumed start right.rest⟩ peeked.user = .ok value user)
    (rest : Climbs g actions name atom operator start ⟨right.rest, [value], left.tokens⟩
      { peeked with user := user } last result) :
    Climbs g actions name atom operator start left state last result := by
  obtain ⟨fuelOne, ranOne⟩ := one
  obtain ⟨fuelTwo, ranTwo⟩ := two
  obtain ⟨fuelRest, ranRest⟩ := rest
  obtain ⟨fuelLook, ranLook⟩ : ∃ fuel, ∀ more, fuel ≤ more → ∃ result,
      (if right.rest = [] then pure none else run g actions more operator right.rest) next =
        .ok result peeked := by
    rcases look with ⟨ended, rfl⟩ | ⟨further, result, fuel, ran⟩
    · refine ⟨0, fun more _ => ⟨none, ?_⟩⟩
      rw [if_pos ended]
      rfl
    · refine ⟨fuel, fun more le => ⟨result, ?_⟩⟩
      rw [if_neg further]
      exact run_mono le ran
  have invoked : actions.invoke name ⟨left.values ++ op.values.take 1 ++ right.values.take 1,
      left.tokens, consumed start right.rest⟩ peeked = .ok value { peeked with user := user } := by
    unfold Actions.invoke
    rw [reduced]
  have enough : ∀ fuel, fuelOne ≤ fuel → fuelTwo ≤ fuel → fuelLook ≤ fuel → fuelRest ≤ fuel →
      climb g actions (fuel + 1) name atom operator start left state = .ok result last := by
    intro fuel leOne leTwo leLook leRest
    obtain ⟨_, looked⟩ := ranLook fuel leLook
    rw [climb, if_neg nonempty, bind_of_ok (run_mono leOne ranOne)]
    dsimp only
    rw [bind_of_ok (run_mono leTwo ranTwo)]
    dsimp only
    rw [bind_of_ok looked, bind_of_ok invoked]
    exact climb_mono leRest ranRest
  exact ⟨_, enough (fuelOne + fuelTwo + fuelLook + fuelRest) (by omega) (by omega) (by omega)
    (by omega)⟩

/-- What a parse says whose run is known. -/
theorem parse_of_runs {text : Str} {user : σ}
    (runs : Runs g actions (.rule name) (g.skip text) (.fresh user) next result) :
    parse g actions name text user = .ok (result.map Parsed.rest = some []) next.user := by
  obtain ⟨fuel, ran⟩ := runs
  have more := run_mono (Nat.le_max_left fuel (g.fuel text.length)) ran
  rcases parse_cases g actions name text user with
    ⟨found, state, ranParse, parsed, _⟩ | ⟨reason, state, ranParse, _⟩
  · cases more.symm.trans (run_mono (Nat.le_max_right fuel (g.fuel text.length)) ranParse)
    exact parsed
  · have stable : Extends (run g actions _ (.rule name) (g.skip text)) _ :=
      run_stable (Nat.le_max_right fuel (g.fuel text.length)) (.rule name) (g.skip text)
    rcases stable (.fresh user) with same | ⟨_, out⟩
    · cases more.symm.trans (same.symm.trans ranParse)
    · cases out.symm.trans ranParse

end Runs

section Fails

variable {R : Type} (g : Grammar R)

/-- An expression that fails before any rule in it has matched: at its first token,
or behind a literal. -/
inductive FailsAt : Expr R → Str → Prop where
  | literal {text s : Str} : g.literalRest text s = none → FailsAt (.literal text) s
  | token {lexeme : Lexeme} {s : Str} : lexeme.strip s = none → FailsAt (.token lexeme) s
  | seq {first second : Expr R} {s : Str} : FailsAt first s → FailsAt (.seq first second) s
  | behind {text s t : Str} {second : Expr R} : g.literalRest text s = some t →
      FailsAt second t → FailsAt (.seq (.literal text) second) s
  | choice {first second : Expr R} {s : Str} :
      FailsAt first s → FailsAt second s → FailsAt (.choice first second) s
  | rule {name : R} {s : Str} : FailsAt (g.body name) s → FailsAt (.rule name) s

variable {g} {expr : Expr R} {s : Str}

theorem FailsAt.matches (fails : FailsAt g expr s) : Matches g (.parse expr) s none := by
  induction fails with
  | @literal text s none =>
      rw [← none]
      exact .literal
  | @token lexeme s none =>
      have left : g.tokenRest lexeme s = .none := by
        unfold Grammar.tokenRest
        rw [none, Option.map_none]
      rw [← left]
      exact .token
  | seq _ ih => exact .seq_fails ih
  | @behind text s t second some _ ih =>
      refine .seq ?_ ih
      rw [← some]
      exact .literal
  | choice _ _ first second => exact .second first second
  | rule _ ih => exact .rule ih

variable {V σ ε : Type}

variable (g) in
/-- Nothing has happened but that failures were remembered. -/
structure Quiet (state next : State R V σ) : Prop where
  user : next.user = state.user
  cache : ∀ name t, next.cache name t = state.cache name t ∨
    next.cache name t = some none ∧ FailsAt g (.rule name) t

theorem quiet_refl (state : State R V σ) : Quiet g state state := ⟨rfl, fun _ _ => .inl rfl⟩

theorem Quiet.trans {state between next : State R V σ} (first : Quiet g state between)
    (second : Quiet g between next) : Quiet g state next := by
  refine ⟨second.user.trans first.user, fun name t => ?_⟩
  rcases second.cache name t with same | failed
  · rw [same]
    exact first.cache name t
  · exact .inr failed

theorem Quiet.sound {state next : State R V σ} (quiet : Quiet g state next)
    (sound : CacheSound g state) : CacheSound g next := by
  intro name t entry looked
  rcases quiet.cache name t with same | ⟨failed, fails⟩
  · exact sound name t entry (same ▸ looked)
  · cases failed.symm.trans looked
    exact fails.matches

variable [DecidableEq R] {actions : Actions R V σ ε}

/-- An attempt that fails at its first tokens is quiet. -/
theorem FailsAt.runs (fails : FailsAt g expr s) {state : State R V σ}
    (sound : CacheSound g state) :
    ∃ next, Runs g actions expr s state next none ∧ Quiet g state next := by
  induction fails generalizing state with
  | @literal text s none =>
      have runs : Runs g actions (.literal text) s state state _ := runs_literal text s state
      rw [none] at runs
      exact ⟨state, runs, quiet_refl state⟩
  | @token lexeme s none =>
      have runs : Runs g actions (.token lexeme) s state state _ := runs_token lexeme s state
      rw [none] at runs
      exact ⟨state, runs, quiet_refl state⟩
  | seq _ ih =>
      obtain ⟨next, runs, quiet⟩ := ih sound
      exact ⟨next, runs_seq_fails runs, quiet⟩
  | @behind text s t second some _ ih =>
      have one : Runs g actions (.literal text) s state state _ := runs_literal text s state
      rw [some] at one
      obtain ⟨next, runs, quiet⟩ := ih sound
      exact ⟨next, runs_seq one runs, quiet⟩
  | choice _ _ firstIh secondIh =>
      obtain ⟨between, one, quietOne⟩ := firstIh sound
      obtain ⟨next, two, quietTwo⟩ := secondIh (quietOne.sound sound)
      exact ⟨next, runs_second one two, quietOne.trans quietTwo⟩
  | @rule name s fails ih =>
      cases looked : state.cache name s with
      | some entry =>
          have same := (sound name s entry looked).unique fails.rule.matches
          rw [Option.map_eq_none_iff] at same
          refine ⟨state, ?_, quiet_refl state⟩
          have runs : Runs g actions (.rule name) s state state _ := runs_remembered looked
          rw [same] at runs
          exact runs
      | none =>
          obtain ⟨next, runs, quiet⟩ := ih sound
          refine ⟨_, runs_rule_fails looked runs, quiet.trans ⟨rfl, fun other t => ?_⟩⟩
          unfold State.remembering
          dsimp only
          split
          · next here =>
            obtain ⟨rfl, rfl⟩ := here
            exact .inr ⟨rfl, fails.rule⟩
          · exact .inl rfl

end Fails

section Reads

variable {R V E ε : Type} (g : Grammar R)

/-- Nothing but failures is remembered of texts of some length and of shorter ones. -/
def Fresh {σ : Type} (length : Nat) (state : State R V σ) : Prop :=
  ∀ name t, t.length ≤ length →
    state.cache name t = none ∨ state.cache name t = some none ∧ FailsAt g (.rule name) t

/-- The actions have logged something, and of texts of some length and of shorter
ones only failures were remembered. -/
structure Moved (length : Nat) (log : List E) (state next : State R V (List E)) : Prop where
  user : next.user = state.user ++ log
  cache : ∀ name t, t.length ≤ length → next.cache name t = state.cache name t ∨
    next.cache name t = some none ∧ FailsAt g (.rule name) t

variable {g}

theorem Quiet.moved {state next : State R V (List E)} (quiet : Quiet g state next) (length : Nat) :
    Moved g length [] state next :=
  ⟨quiet.user.trans (List.append_nil _).symm, fun name t _ => quiet.cache name t⟩

theorem Moved.trans {length shorter : Nat} {log more : List E}
    {state between next : State R V (List E)} (first : Moved g length log state between)
    (second : Moved g shorter more between next) (le : shorter ≤ length) :
    Moved g shorter (log ++ more) state next := by
  refine ⟨?_, fun name t short => ?_⟩
  · rw [second.user, first.user, List.append_assoc]
  · rcases second.cache name t short with same | failed
    · rw [same]
      exact first.cache name t (short.trans le)
    · exact .inr failed

theorem Fresh.moved {length shorter : Nat} {log : List E} {state next : State R V (List E)}
    (fresh : Fresh g length state) (moved : Moved g shorter log state next) (le : shorter ≤ length) :
    Fresh g shorter next := by
  intro name t short
  rcases moved.cache name t short with same | failed
  · rw [same]
    exact fresh name t (short.trans le)
  · exact .inr failed

variable [DecidableEq R] (actions : Actions R V (List E) ε)

/-- An expression reads a part of a text on which nothing has been read before: what
it leaves and gathers, and what its actions log. -/
def Reads (g : Grammar R) (expr : Expr R) (s : Str) (parsed : Parsed V) (log : List E) : Prop :=
  ∀ state, CacheSound g state → Fresh g s.length state →
    ∃ next, Runs g actions expr s state next (some parsed) ∧
      Moved g parsed.rest.length log state next

variable {actions} {expr lhs rhs body atom : Expr R} {name operator : R} {s start : Str}
  {parsed left right following : Parsed V} {log more : List E}

theorem Reads.matches (reads : Reads actions g expr s parsed log) :
    Matches g (.parse expr) s (some parsed.rest) := by
  obtain ⟨_, runs, _⟩ := reads (.fresh []) (cacheSound_fresh _) fun _ _ _ => .inl rfl
  exact (runs.tells (cacheSound_fresh _)).2

theorem Reads.length_le (reads : Reads actions g expr s parsed log) :
    parsed.rest.length ≤ s.length := reads.matches.length.1

theorem reads_literal {text rest : Str} (read : g.literalRest text s = some rest) :
    Reads actions g (.literal text) s ⟨rest, [], []⟩ [] := by
  intro state _ _
  have runs : Runs g actions (.literal text) s state state _ := runs_literal text s state
  rw [read] at runs
  exact ⟨state, runs, (quiet_refl state).moved _⟩

theorem reads_token {lexeme : Lexeme} {rest : Str} (read : lexeme.strip s = some rest) :
    Reads actions g (.token lexeme) s ⟨g.skip rest, [], [consumed s rest]⟩ [] := by
  intro state _ _
  have runs : Runs g actions (.token lexeme) s state state _ := runs_token lexeme s state
  rw [read] at runs
  exact ⟨state, runs, (quiet_refl state).moved _⟩

theorem Reads.seq (one : Reads actions g lhs s parsed log)
    (two : Reads actions g rhs parsed.rest following more) :
    Reads actions g (.seq lhs rhs) s (parsed.append following) (log ++ more) := by
  intro state sound fresh
  obtain ⟨between, runsOne, movedOne⟩ := one state sound fresh
  obtain ⟨next, runsTwo, movedTwo⟩ := two between (runsOne.tells sound).1
    (fresh.moved movedOne one.length_le)
  exact ⟨next, runs_seq runsOne runsTwo, movedOne.trans movedTwo two.length_le⟩

theorem Reads.first (one : Reads actions g lhs s parsed log) :
    Reads actions g (.choice lhs rhs) s parsed log := by
  intro state sound fresh
  obtain ⟨next, runs, moved⟩ := one state sound fresh
  exact ⟨next, runs_first runs, moved⟩

theorem Reads.second (fails : FailsAt g lhs s) (two : Reads actions g rhs s parsed log) :
    Reads actions g (.choice lhs rhs) s parsed log := by
  intro state sound fresh
  obtain ⟨between, runsOne, quiet⟩ := fails.runs sound
  have untouched := quiet.moved s.length
  obtain ⟨next, runsTwo, moved⟩ := two between (quiet.sound sound) (fresh.moved untouched le_rfl)
  exact ⟨next, runs_second runsOne runsTwo, untouched.trans moved two.length_le⟩

theorem reads_absent {most : Option Nat} (bounded : most ≠ some 0) (fails : FailsAt g body s) :
    Reads actions g (.rep 0 most body) s ⟨s, [], []⟩ [] := by
  intro state sound _
  obtain ⟨next, runs, quiet⟩ := fails.runs sound
  exact ⟨next, runs_rep_enough bounded runs, quiet.moved _⟩

theorem Reads.present (one : Reads actions g body s parsed log) :
    Reads actions g (.rep 0 (some 1) body) s (parsed.append ⟨parsed.rest, [], []⟩) log := by
  intro state sound fresh
  obtain ⟨next, runs, moved⟩ := one state sound fresh
  have bounded : some 1 ≠ some 0 := by decide
  exact ⟨next, runs_rep_more bounded runs (runs_rep_full parsed.rest next), moved⟩

theorem reads_full (s : Str) : Reads actions g (.rep 0 (some 0) body) s ⟨s, [], []⟩ [] :=
  fun state _ _ => ⟨state, runs_rep_full s state, (quiet_refl state).moved _⟩

theorem Reads.needed {least : Nat} {most : Option Nat} (one : Reads actions g body s parsed log)
    (two : Reads actions g (.rep least (most.map Nat.pred) body) parsed.rest following more) :
    Reads actions g (.rep (least + 1) most body) s (parsed.append following) (log ++ more) := by
  intro state sound fresh
  obtain ⟨between, runsOne, movedOne⟩ := one state sound fresh
  obtain ⟨next, runsTwo, movedTwo⟩ := two between (runsOne.tells sound).1
    (fresh.moved movedOne one.length_le)
  exact ⟨next, runs_rep_needed runsOne runsTwo, movedOne.trans movedTwo two.length_le⟩

/-- A rule that is read where nothing has been read is not remembered yet. -/
theorem Reads.not_remembered (reads : Reads actions g (g.body name) s parsed log)
    {state : State R V (List E)} (fresh : Fresh g s.length state) : state.cache name s = none := by
  rcases fresh name s le_rfl with unknown | ⟨_, fails⟩
  · exact unknown
  · have matched : Matches g (.parse (.rule name)) s (some parsed.rest) := .rule reads.matches
    cases matched.unique fails.matches

theorem Reads.rule {value : V} (reads : Reads actions g (g.body name) s parsed log)
    (reduced : ∀ user, actions.reduce name
      ⟨parsed.values, parsed.tokens, consumed s parsed.rest⟩ user = .ok value (user ++ more)) :
    Reads actions g (.rule name) s ⟨parsed.rest, [value], []⟩ (log ++ more) := by
  intro state sound fresh
  obtain ⟨next, runs, moved⟩ := reads state sound fresh
  refine ⟨_, runs_rule (reads.not_remembered fresh) runs (reduced next.user), ?_, ?_⟩
  · change next.user ++ more = _
    rw [moved.user, List.append_assoc]
  · intro other t short
    have matched : Matches g (.parse (.rule name)) s (some parsed.rest) := .rule reads.matches
    have shorter : t ≠ s := by
      rintro rfl
      exact absurd (matched.length.2 rfl) (Nat.not_lt.mpr short)
    have kept := moved.cache other t short
    unfold State.remembering
    dsimp only
    rw [if_neg fun here => shorter here.2]
    exact kept

/-- Nothing has been read from a text on but, perhaps, the operator it begins with. -/
def Ready (g : Grammar R) (operator : R) (s : Str) (state : State R V (List E)) :
    Option (Str × V) → Prop
  | none => Fresh g s.length state
  | some found => Fresh g s.length state ∨
      state.cache operator s = some (some found) ∧ Fresh g found.1.length state

/-- What follows an operand: no operator, or an operator that logs nothing. -/
def Follows (actions : Actions R V (List E) ε) (g : Grammar R) (operator : R) (s : Str) :
    Option (Str × V) → Prop
  | none => FailsAt g (.rule operator) s
  | some found => Reads actions g (.rule operator) s ⟨found.1, [found.2], []⟩ []

/-- The operators and operands behind the first operand read the rest of an infix
expression. -/
structure ReadsOn (actions : Actions R V (List E) ε) (g : Grammar R) (name : R) (atom : Expr R)
    (operator : R) (start : Str) (left : Parsed V) (seen : Option (Str × V)) (parsed : Parsed V)
    (log : List E) : Prop where
  le : parsed.rest.length ≤ left.rest.length
  le_seen : ∀ found ∈ seen, parsed.rest.length ≤ found.1.length
  reads : ∀ state, CacheSound g state → Ready g operator left.rest state seen →
    ∃ next, Climbs g actions name atom (.rule operator) start left state next (some parsed) ∧
      Moved g parsed.rest.length log state next

theorem Reads.infix {seen : Option (Str × V)} (one : Reads actions g atom s left log)
    (two : ReadsOn actions g name atom operator s left seen parsed more) :
    Reads actions g (.infixLeft name atom (.rule operator)) s parsed (log ++ more) := by
  intro state sound fresh
  obtain ⟨between, runs, moved⟩ := one state sound fresh
  have freshLeft := fresh.moved moved one.length_le
  have ready : Ready g operator left.rest between seen := by
    cases seen with
    | none => exact freshLeft
    | some found => exact .inl freshLeft
  obtain ⟨next, climbs, movedOn⟩ := two.reads between (runs.tells sound).1 ready
  exact ⟨next, runs_infix runs climbs, moved.trans movedOn two.le⟩

theorem readsOn_end (fails : FailsAt g (.rule operator) left.rest) :
    ReadsOn actions g name atom operator start left none left [] := by
  refine ⟨le_rfl, fun _ impossible => (by cases impossible), fun state sound _ => ?_⟩
  by_cases ended : left.rest = []
  · exact ⟨state, climbs_end ended, (quiet_refl state).moved _⟩
  · obtain ⟨next, runs, quiet⟩ := fails.runs sound
    exact ⟨next, climbs_no_operator ended runs, quiet.moved _⟩

/-- The look for an operator behind an operand leaves the state ready for it. -/
theorem Follows.looksOn {seen : Option (Str × V)} (follows : Follows actions g operator s seen)
    {state : State R V (List E)} (sound : CacheSound g state) (fresh : Fresh g s.length state) :
    ∃ next, LooksOn g actions (.rule operator) s state next ∧ Ready g operator s next seen ∧
      CacheSound g next ∧ next.user = state.user ∧
        ∀ shorter, (∀ found ∈ seen, shorter ≤ found.1.length) → (seen = none → shorter ≤ s.length) →
          Moved g shorter [] state next := by
  cases seen with
  | none =>
      by_cases ended : s = []
      · exact ⟨state, .inl ⟨ended, rfl⟩, fresh, sound, rfl, fun _ _ _ => (quiet_refl state).moved _⟩
      · obtain ⟨next, runs, quiet⟩ := FailsAt.runs follows sound
        have untouched := fresh.moved (quiet.moved s.length) le_rfl
        exact ⟨next, .inr ⟨ended, _, runs⟩, untouched, quiet.sound sound, quiet.user,
          fun _ _ _ => quiet.moved _⟩
  | some found =>
      obtain ⟨next, runs, moved⟩ := follows state sound fresh
      have nonempty : s ≠ [] := by
        rintro rfl
        exact absurd (Reads.matches follows |>.length.2 rfl) (Nat.not_lt_zero _)
      refine ⟨next, .inr ⟨nonempty, _, runs⟩, .inr ⟨runs.remembers, ?_⟩, (runs.tells sound).1, ?_, ?_⟩
      · exact fresh.moved moved (Reads.length_le follows)
      · rw [moved.user, List.append_nil]
      · intro shorter le _
        exact ⟨moved.user, fun name t short => moved.cache name t (short.trans (le found rfl))⟩

/-- The operator behind an operand, looked at before or not. -/
theorem Follows.read {found : Str × V} (follows : Follows actions g operator s (some found))
    {state : State R V (List E)} (sound : CacheSound g state)
    (ready : Ready g operator s state (some found)) :
    ∃ next, Runs g actions (.rule operator) s state next (some ⟨found.1, [found.2], []⟩) ∧
      CacheSound g next ∧ Fresh g found.1.length next ∧ Moved g found.1.length [] state next := by
  rcases ready with fresh | ⟨looked, fresh⟩
  · obtain ⟨next, runs, moved⟩ := follows state sound fresh
    exact ⟨next, runs, (runs.tells sound).1, fresh.moved moved (Reads.length_le follows), moved⟩
  · exact ⟨state, runs_remembered looked, sound, fresh, (quiet_refl state).moved _⟩

theorem ReadsOn.next {found : Str × V} {seen : Option (Str × V)} {value : V} {last : List E}
    (op : Follows actions g operator left.rest (some found))
    (operand : Reads actions g atom found.1 right log)
    (follows : Follows actions g operator right.rest seen)
    (reduced : ∀ user, actions.reduce name ⟨left.values ++ [found.2] ++ right.values.take 1,
      left.tokens, consumed start right.rest⟩ user = .ok value (user ++ more))
    (rest : ReadsOn actions g name atom operator start ⟨right.rest, [value], left.tokens⟩ seen
      parsed last) :
    ReadsOn actions g name atom operator start left (some found) parsed (log ++ more ++ last) := by
  have opLe := Reads.length_le op
  have operandLe := operand.length_le
  have restLe := rest.le
  dsimp only at opLe operandLe restLe
  refine ⟨restLe.trans (operandLe.trans opLe), ?_, fun state sound ready => ?_⟩
  · rintro _ ⟨⟩
    exact restLe.trans operandLe
  · have nonempty : left.rest ≠ [] := by
      intro ended
      have shorter := (Reads.matches op).length.2 rfl
      rw [ended] at shorter
      exact absurd shorter (Nat.not_lt_zero _)
    obtain ⟨afterOp, ranOp, soundOp, freshOp, movedOp⟩ := op.read sound ready
    obtain ⟨after, ran, moved⟩ := operand afterOp soundOp freshOp
    have freshAfter := freshOp.moved moved operandLe
    obtain ⟨peeked, looksOn, readyOn, soundOn, sameUser, movedOn⟩ :=
      follows.looksOn (ran.tells soundOp).1 freshAfter
    obtain ⟨next, climbs, movedRest⟩ := rest.reads { peeked with user := peeked.user ++ more }
      soundOn readyOn
    refine ⟨next, climbs_on nonempty ranOp ran looksOn (reduced peeked.user) climbs, ?_⟩
    have look := movedOn parsed.rest.length rest.le_seen fun _ => restLe
    have acted : Moved g parsed.rest.length more peeked { peeked with user := peeked.user ++ more } :=
      ⟨rfl, fun _ _ _ => .inl rfl⟩
    have whole := (((movedOp.trans moved operandLe).trans look restLe).trans acted le_rfl).trans
      movedRest le_rfl
    rw [List.nil_append, List.append_nil] at whole
    exact whole

end Reads

end Peg
