import FlexConfig.Foundation.Peg
import FlexConfig.Foundation.Procedure

/-! # Packrat parsing with actions

A parser for the grammars of `Peg` that runs an action whenever a rule has matched
and remembers for every rule and every text what came of it, so that no action
runs twice at one place. Actions write to a state that is not taken back when the
expression around them fails.

What a run says of a text is what the grammar says of it, however its actions
behave, and the fuel of `parse` always suffices (`parse_cases`, `parse_eq_ok`).
-/

namespace Peg

open Procedure

/-- What a rule hands its action: the values of the rules matched in it, its tokens
and the text it matched. -/
structure SemanticValues (V : Type) where
  values : List V
  tokens : List Str
  sv : Str

/-- The first token, the whole text where there is none. -/
def SemanticValues.token {V : Type} (vs : SemanticValues V) : Str := vs.tokens.head?.getD vs.sv

/-- The actions of some of the rules, and the value of a rule in which nothing has a
value. -/
structure Actions (R V σ ε : Type) where
  empty : V
  action : R → Option (SemanticValues V → EStateM ε σ V)

/-- The value of a rule that has matched: a rule without an action has the first
value in it. -/
def Actions.reduce {R V σ ε : Type} (actions : Actions R V σ ε) (name : R)
    (vs : SemanticValues V) : EStateM ε σ V :=
  match actions.action name with
  | some act => act vs
  | none => pure (vs.values.head?.getD actions.empty)

/-- The state of a run: the actions' state, and for rules and texts met before what
the rule left of the text and its value, or that it failed. -/
structure State (R V σ : Type) where
  user : σ
  cache : R → Str → Option (Option (Str × V))

/-- Nothing is remembered yet. -/
def State.fresh {R V σ : Type} (user : σ) : State R V σ := ⟨user, fun _ _ => none⟩

/-- Why a run stops: its fuel is used up, or an action has raised. -/
inductive Stop (ε : Type) where
  | outOfFuel
  | raised (reason : ε)

/-- What an expression that matched has left and gathered. -/
structure Parsed (V : Type) where
  rest : Str
  values : List V
  tokens : List Str

def Parsed.append {V : Type} (first second : Parsed V) : Parsed V :=
  ⟨second.rest, first.values ++ second.values, first.tokens ++ second.tokens⟩

/-- The text between two positions. -/
def consumed (s rest : Str) : Str := s.take (s.length - rest.length)

abbrev Matching (R V σ ε : Type) := EStateM (Stop ε) (State R V σ)

section Run

variable {R V σ ε : Type} [DecidableEq R]

/-- Reduce a rule within a run. -/
def Actions.invoke (actions : Actions R V σ ε) (name : R) (vs : SemanticValues V) :
    Matching R V σ ε V := fun state =>
  match actions.reduce name vs state.user with
  | .ok value user => .ok value { state with user := user }
  | .error reason user => .error (.raised reason) { state with user := user }

/-- Remember what came of a rule at a text. -/
def remember (name : R) (s : Str) (entry : Option (Str × V)) : Matching R V σ ε PUnit :=
  modify fun state =>
    { state with
      cache := fun other t => if other = name ∧ t = s then some entry else state.cache other t }

variable (g : Grammar R) (actions : Actions R V σ ε)

mutual

/-- Try an expression at a text. -/
def run : Nat → Expr R → Str → Matching R V σ ε (Option (Parsed V))
  | 0, _, _ => throw .outOfFuel
  | _ + 1, .literal text, s => pure ((g.literalRest text s).map fun rest => ⟨rest, [], []⟩)
  | _ + 1, .token lexeme, s =>
    pure ((lexeme.strip s).map fun rest => ⟨g.skip rest, [], [consumed s rest]⟩)
  | fuel + 1, .seq first second, s => do
    match ← run fuel first s with
    | none => return none
    | some parsed =>
      let following ← run fuel second parsed.rest
      return following.map parsed.append
  | fuel + 1, .choice first second, s => do
    match ← run fuel first s with
    | some parsed => return some parsed
    | none => run fuel second s
  | fuel + 1, .rep (min + 1) max body, s => do
    match ← run fuel body s with
    | none => return none
    | some parsed =>
      let following ← run fuel (.rep min (max.map Nat.pred) body) parsed.rest
      return following.map parsed.append
  | fuel + 1, .rep 0 max body, s =>
    if max = some 0 then return some ⟨s, [], []⟩
    else do
      match ← run fuel body s with
      | none => return some ⟨s, [], []⟩
      | some parsed =>
        let following ← run fuel (.rep 0 (max.map Nat.pred) body) parsed.rest
        return following.map parsed.append
  | fuel + 1, .rule name, s => do
    match (← get).cache name s with
    | some entry => return entry.map fun found => ⟨found.1, [found.2], []⟩
    | none =>
      match ← run fuel (g.body name) s with
      | none =>
        remember name s none
        return none
      | some parsed =>
        let value ← actions.invoke name ⟨parsed.values, parsed.tokens, consumed s parsed.rest⟩
        remember name s (some (parsed.rest, value))
        return some ⟨parsed.rest, [value], []⟩
  | fuel + 1, .infixLeft name atom operator, s => do
    match ← run fuel atom s with
    | none => return none
    | some parsed => climb fuel name atom operator s parsed

/-- Go on behind the operands gathered so far, by precedence climbing: the operand
on the right is read as an expression of the next level, which ends with a look for
an operator, and the action of the infix rule runs once for each operator. -/
def climb : Nat → (name : R) → (atom operator : Expr R) → (start : Str) → Parsed V →
    Matching R V σ ε (Option (Parsed V))
  | 0, _, _, _, _, _ => throw .outOfFuel
  | fuel + 1, name, atom, operator, start, left =>
    if left.rest = [] then return some left
    else do
      match ← run fuel operator left.rest with
      | none => return some left
      | some op =>
        match ← run fuel atom op.rest with
        | none => return none
        | some right =>
          let _ ← (if right.rest = [] then pure none else run fuel operator right.rest)
          let value ← actions.invoke name
            ⟨left.values ++ op.values.take 1 ++ right.values.take 1, left.tokens,
              consumed start right.rest⟩
          climb fuel name atom operator start ⟨right.rest, [value], left.tokens⟩

end

/-- Bounds the fuel for expressions whose rules rank below `bound` until something
is consumed, without the size of the expression. -/
def Grammar.weight (length bound : Nat) : Nat :=
  (length * (g.height + 1) + bound) * (g.width + 1)

/-- Enough fuel for a rule at any text of a length. -/
def Grammar.fuel (length : Nat) : Nat := g.weight length g.height + 2

/-- Parse a text from a rule: white space first, then the rule, and nothing may be
left over. -/
def parse (start : R) (text : Str) : EStateM ε σ Bool := fun user =>
  match run g actions (g.fuel text.length) (.rule start) (g.skip text) (.fresh user) with
  | .ok result state => .ok (result.map Parsed.rest = some []) state.user
  | .error (.raised reason) state => .error reason state.user
  | .error .outOfFuel state => .ok false state.user

end Run

section Meets

variable {ε σ α β : Type}

/-- A computation started in a state returns as `good` says or halts as `bad` says. -/
def Meets (body : EStateM ε σ α) (state : σ) (good : α → σ → Prop) (bad : ε → Prop) : Prop :=
  match body state with
  | .ok value next => good value next
  | .error reason _ => bad reason

variable {state : σ} {good : α → σ → Prop} {bad : ε → Prop} {body : EStateM ε σ α}

theorem meets_pure {value : α} (holds : good value state) :
    Meets (pure value) state good bad := holds

theorem Meets.imp {better : α → σ → Prop} {worse : ε → Prop} (meets : Meets body state good bad)
    (goods : ∀ value next, good value next → better value next)
    (bads : ∀ reason, bad reason → worse reason) : Meets body state better worse := by
  unfold Meets at *
  cases ran : body state with
  | ok value next =>
      rw [ran] at meets
      exact goods value next meets
  | error reason _ =>
      rw [ran] at meets
      exact bads reason meets

theorem meets_bind {next : α → EStateM ε σ β} {better : β → σ → Prop}
    (first : Meets body state good bad)
    (second : ∀ value between, good value between → Meets (next value) between better bad) :
    Meets (body >>= next) state better bad := by
  unfold Meets at first
  cases ran : body state with
  | ok value between =>
      rw [ran] at first
      unfold Meets
      rw [bind_of_ok ran]
      exact second value between first
  | error reason between =>
      rw [ran] at first
      unfold Meets
      rw [bind_of_error ran]
      exact first

end Meets

section Sound

variable {R V σ ε : Type} {g : Grammar R} {actions : Actions R V σ ε}

/-- What is remembered is what the grammar says. -/
def CacheSound (g : Grammar R) (state : State R V σ) : Prop :=
  ∀ name s entry, state.cache name s = some entry →
    Matches g (.parse (.rule name)) s (entry.map Prod.fst)

theorem invoke_meets (name : R) (vs : SemanticValues V) (state : State R V σ) :
    Meets (actions.invoke name vs) state (fun _ next => next.cache = state.cache)
      (· ≠ .outOfFuel) := by
  unfold Meets Actions.invoke
  cases actions.reduce name vs state.user with
  | ok value user => exact rfl
  | error reason user => exact fun impossible => by cases impossible

theorem Grammar.weight_of_lt (g : Grammar R) (bound : Nat) {shorter length : Nat} (lt : shorter < length) :
    g.weight shorter g.height < g.weight length bound := by
  have steps : (shorter + 1) * (g.height + 1) ≤ length * (g.height + 1) :=
    Nat.mul_le_mul_right _ lt
  rw [Nat.add_mul] at steps
  exact Nat.mul_lt_mul_of_pos_right (by omega) (Nat.succ_pos _)

theorem Grammar.weight_of_le (g : Grammar R) (bound : Nat) {shorter length : Nat} (le : shorter ≤ length) :
    g.weight shorter bound ≤ g.weight length bound := by
  have steps : shorter * (g.height + 1) ≤ length * (g.height + 1) := Nat.mul_le_mul_right _ le
  exact Nat.mul_le_mul_right _ (by omega)

theorem Grammar.weight_of_rank_lt (g : Grammar R) (length : Nat) {lower bound : Nat} (lt : lower < bound) :
    g.weight length lower + g.width < g.weight length bound := by
  have step : g.weight length lower + (g.width + 1) ≤ g.weight length bound := by
    unfold Grammar.weight
    rw [← Nat.succ_mul]
    exact Nat.mul_le_mul_right _ (by omega)
  omega

/-- The rules a goal tries before it has consumed anything rank below `bound`. -/
def Goal.guarded (g : Grammar R) (bound : Nat) : Goal R → Bool
  | parse expr => expr.guarded g.rank g.height bound
  | climb atom operator =>
    bound = g.height && atom.consumes && operator.consumes &&
      atom.guarded g.rank g.height g.height && operator.guarded g.rank g.height g.height

def Goal.size : Goal R → Nat
  | parse expr => expr.size
  | climb atom operator => atom.size + operator.size + 1

/-- Running out of fuel means to have started with too little. -/
def Starved (g : Grammar R) (fuel : Nat) (goal : Goal R) (s : Str) (stop : Stop ε) : Prop :=
  stop = .outOfFuel → ∀ bound, goal.guarded g bound →
    fuel ≤ g.weight s.length bound + goal.size

/-- A run has matched what the grammar says and leaves a sound cache. -/
def Says (g : Grammar R) (goal : Goal R) (s : Str) (result : Option (Parsed V))
    (next : State R V σ) : Prop :=
  CacheSound g next ∧ Matches g goal s (result.map Parsed.rest)

/-- What starves a part of a goal starves the goal. -/
theorem Starved.of_part {fuel : Nat} {whole part : Goal R} {s t : Str} {stop : Stop ε}
    (starved : Starved g fuel part t stop)
    (smaller : ∀ bound, whole.guarded g bound →
      ∃ lower, part.guarded g lower ∧
        g.weight t.length lower + part.size < g.weight s.length bound + whole.size) :
    Starved g (fuel + 1) whole s stop := by
  intro out bound guarded
  obtain ⟨lower, guardedPart, less⟩ := smaller bound guarded
  exact (starved out lower guardedPart).trans_lt less

theorem map_append_rest (parsed : Parsed V) (following : Option (Parsed V)) :
    (following.map parsed.append).map Parsed.rest = following.map Parsed.rest := by
  cases following <;> rfl

variable {fuel : Nat}

/-- The rounds of a repetition: the body, and what is repeated behind it. -/
theorem starved_body {min : Nat} {max : Option Nat} {body : Expr R} {s : Str} {stop : Stop ε}
    (starved : Starved g fuel (.parse body) s stop) :
    Starved g (fuel + 1) (.parse (.rep min max body)) s stop := by
  refine starved.of_part fun bound guarded => ⟨bound, ?_, ?_⟩
  · simp only [Goal.guarded, Expr.guarded, Bool.and_eq_true] at guarded
    exact guarded.1.2
  · simp only [Goal.size, Expr.size]
    omega

theorem starved_round {min next : Nat} {max max' : Option Nat} {body : Expr R} {s t : Str}
    {stop : Stop ε} (matched : Matches g (.parse body) s (some t))
    (starved : Starved g fuel (.parse (.rep next max' body)) t stop) :
    Starved g (fuel + 1) (.parse (.rep min max body)) s stop := by
  refine starved.of_part fun bound guarded => ⟨g.height, ?_, ?_⟩
  · simp only [Goal.guarded, Expr.guarded, Bool.and_eq_true] at guarded ⊢
    exact ⟨⟨guarded.1.1, guarded.2⟩, guarded.2⟩
  · simp only [Goal.guarded, Expr.guarded, Bool.and_eq_true] at guarded
    have shrinks := g.weight_of_lt bound (matched.length.2 guarded.1.1)
    simp only [Goal.size, Expr.size]
    omega

/-- What is tried behind an operand is smaller than the climb, or at a shorter text. -/
theorem starved_behind {atom operator : Expr R} {part : Goal R} {s t : Str} {stop : Stop ε}
    (starved : Starved g fuel part t stop) (le : t.length ≤ s.length)
    (small : part.size ≤ (Goal.climb atom operator).size)
    (less : t.length < s.length ∨ part.size < (Goal.climb atom operator).size)
    (inherits : (Goal.climb atom operator).guarded g g.height → part.guarded g g.height) :
    Starved g (fuel + 1) (.climb atom operator) s stop := by
  refine starved.of_part fun bound guarded => ?_
  have top : bound = g.height := by
    simp only [Goal.guarded, Bool.and_eq_true, decide_eq_true_eq] at guarded
    exact guarded.1.1.1.1
  rw [top] at guarded ⊢
  refine ⟨g.height, inherits guarded, ?_⟩
  have mono := g.weight_of_le g.height le
  rcases less with shorter | smaller
  · have shrinks := g.weight_of_lt g.height shorter
    omega
  · omega

theorem starved_operator {atom operator : Expr R} {s t : Str} {stop : Stop ε}
    (le : t.length ≤ s.length) (starved : Starved g fuel (.parse operator) t stop) :
    Starved g (fuel + 1) (.climb atom operator) s stop := by
  refine starved_behind starved le ?_ (.inr ?_) ?_
  · simp only [Goal.size]
    omega
  · simp only [Goal.size]
    omega
  · simp only [Goal.guarded, Bool.and_eq_true]
    exact fun guarded => guarded.2

theorem starved_operand {atom operator : Expr R} {s t : Str} {stop : Stop ε}
    (le : t.length ≤ s.length) (starved : Starved g fuel (.parse atom) t stop) :
    Starved g (fuel + 1) (.climb atom operator) s stop := by
  refine starved_behind starved le ?_ (.inr ?_) ?_
  · simp only [Goal.size]
    omega
  · simp only [Goal.size]
    omega
  · simp only [Goal.guarded, Bool.and_eq_true]
    exact fun guarded => guarded.1.2

theorem cacheSound_fresh (user : σ) : CacheSound g (State.fresh user : State R V σ) := by
  intro _ _ _ impossible
  cases impossible

variable [DecidableEq R]

theorem CacheSound.remember {state : State R V σ} (sound : CacheSound g state) {name : R} {s : Str}
    {entry : Option (Str × V)} (said : Matches g (.parse (.rule name)) s (entry.map Prod.fst))
    {bad : Stop ε → Prop} :
    Meets (remember name s entry : Matching R V σ ε PUnit) state (fun _ next => CacheSound g next)
      bad := by
  intro other t found looked
  dsimp only at looked
  split at looked
  · next here =>
    obtain ⟨rfl, rfl⟩ := here
    cases looked
    exact said
  · exact sound other t found looked

variable (g actions) in
/-- What the runs with some fuel have to do. -/
def RunsSay (fuel : Nat) : Prop :=
  (∀ expr s state, CacheSound g state →
    Meets (run g actions fuel expr s) state (Says g (.parse expr) s)
      (Starved g fuel (.parse expr) s)) ∧
  (∀ name atom operator start left state, CacheSound g state →
    Meets (climb g actions fuel name atom operator start left) state
      (Says g (.climb atom operator) left.rest) (Starved g fuel (.climb atom operator) left.rest))

theorem run_seq_says (runs : RunsSay g actions fuel) (first second : Expr R) (s : Str)
    {state : State R V σ} (sound : CacheSound g state) :
    Meets (run g actions (fuel + 1) (.seq first second) s) state
      (Says g (.parse (.seq first second)) s)
      (Starved g (fuel + 1) (.parse (.seq first second)) s) := by
  rw [run]
  refine meets_bind ((runs.1 first s state sound).imp (fun _ _ said => said) ?_) ?_
  · intro stop starved
    refine starved.of_part fun bound guarded => ⟨bound, ((Bool.and_eq_true _ _).mp guarded).1, ?_⟩
    simp only [Goal.size, Expr.size]
    omega
  · rintro (_ | parsed) between ⟨soundBetween, matched⟩
    · exact meets_pure ⟨soundBetween, .seq_fails matched⟩
    · have length := matched.length
      refine meets_bind ((runs.1 second parsed.rest between soundBetween).imp
        (fun _ _ said => said) ?_) ?_
      · intro stop starved
        refine starved.of_part fun bound guarded => ⟨_, ((Bool.and_eq_true _ _).mp guarded).2, ?_⟩
        have shrinks : g.weight parsed.rest.length (bif first.consumes then g.height else bound) ≤
            g.weight s.length bound := by
          cases consumes : first.consumes with
          | true => exact (g.weight_of_lt bound (length.2 consumes)).le
          | false => exact g.weight_of_le bound length.1
        simp only [Goal.size, Expr.size]
        omega
      · rintro following last ⟨soundLast, matchedLast⟩
        refine meets_pure ⟨soundLast, ?_⟩
        rw [map_append_rest]
        exact .seq matched matchedLast

theorem run_choice_says (runs : RunsSay g actions fuel) (first second : Expr R) (s : Str)
    {state : State R V σ} (sound : CacheSound g state) :
    Meets (run g actions (fuel + 1) (.choice first second) s) state
      (Says g (.parse (.choice first second)) s)
      (Starved g (fuel + 1) (.parse (.choice first second)) s) := by
  rw [run]
  refine meets_bind ((runs.1 first s state sound).imp (fun _ _ said => said) ?_) ?_
  · intro stop starved
    refine starved.of_part fun bound guarded => ⟨bound, ((Bool.and_eq_true _ _).mp guarded).1, ?_⟩
    simp only [Goal.size, Expr.size]
    omega
  · rintro (_ | parsed) between ⟨soundBetween, matched⟩
    · refine (runs.1 second s between soundBetween).imp ?_ ?_
      · rintro result last ⟨soundLast, matchedLast⟩
        exact ⟨soundLast, .second matched matchedLast⟩
      · intro stop starved
        refine starved.of_part fun bound guarded => ⟨bound, ((Bool.and_eq_true _ _).mp guarded).2, ?_⟩
        simp only [Goal.size, Expr.size]
        omega
    · exact meets_pure ⟨soundBetween, .first matched⟩

theorem run_rep_says (runs : RunsSay g actions fuel) (min : Nat) (max : Option Nat)
    (body : Expr R) (s : Str) {state : State R V σ} (sound : CacheSound g state) :
    Meets (run g actions (fuel + 1) (.rep min max body) s) state
      (Says g (.parse (.rep min max body)) s)
      (Starved g (fuel + 1) (.parse (.rep min max body)) s) := by
  have once := runs.1 body s state sound
  cases min with
  | zero =>
      rw [run]
      split
      · next full =>
        rw [full]
        exact meets_pure ⟨sound, .full⟩
      · next bounded =>
        refine meets_bind (once.imp (fun _ _ said => said) fun _ => starved_body) ?_
        rintro (_ | parsed) between ⟨soundBetween, matched⟩
        · exact meets_pure ⟨soundBetween, .enough bounded matched⟩
        · refine meets_bind ((runs.1 _ parsed.rest between soundBetween).imp
            (fun _ _ said => said) fun _ => starved_round matched) ?_
          rintro following last ⟨soundLast, matchedLast⟩
          refine meets_pure ⟨soundLast, ?_⟩
          rw [map_append_rest]
          exact .more bounded matched matchedLast
  | succ min =>
      rw [run]
      refine meets_bind (once.imp (fun _ _ said => said) fun _ => starved_body) ?_
      rintro (_ | parsed) between ⟨soundBetween, matched⟩
      · exact meets_pure ⟨soundBetween, .too_few matched⟩
      · refine meets_bind ((runs.1 _ parsed.rest between soundBetween).imp
          (fun _ _ said => said) fun _ => starved_round matched) ?_
        rintro following last ⟨soundLast, matchedLast⟩
        refine meets_pure ⟨soundLast, ?_⟩
        rw [map_append_rest]
        exact .needed matched matchedLast

theorem run_rule_says (runs : RunsSay g actions fuel) (name : R) (s : Str) {state : State R V σ}
    (sound : CacheSound g state) :
    Meets (run g actions (fuel + 1) (.rule name) s) state (Says g (.parse (.rule name)) s)
      (Starved g (fuel + 1) (.parse (.rule name)) s) := by
  rw [run, Meets, get_bind]
  cases looked : state.cache name s with
  | some entry =>
      refine ⟨sound, ?_⟩
      have remembered := sound name s entry looked
      cases entry <;> exact remembered
  | none =>
      refine meets_bind ((runs.1 (g.body name) s state sound).imp (fun _ _ said => said) ?_) ?_
      · intro stop starved
        refine starved.of_part fun bound guarded => ⟨_, g.body_guarded name, ?_⟩
        have lower := g.weight_of_rank_lt s.length (of_decide_eq_true guarded)
        have small := g.body_size name
        simp only [Goal.size, Expr.size]
        omega
      · rintro (_ | parsed) between ⟨soundBetween, matched⟩
        · refine meets_bind (soundBetween.remember (.rule matched)) ?_
          exact fun _ last soundLast => meets_pure ⟨soundLast, .rule matched⟩
        · refine meets_bind ((invoke_meets name _ between).imp (fun _ _ same => same) ?_) ?_
          · exact fun stop differs out => absurd out differs
          · intro value after same
            have soundAfter : CacheSound g after := by
              unfold CacheSound
              rw [same]
              exact soundBetween
            refine meets_bind (soundAfter.remember (.rule matched)) ?_
            exact fun _ last soundLast => meets_pure ⟨soundLast, .rule matched⟩

theorem run_infix_says (runs : RunsSay g actions fuel) (name : R) (atom operator : Expr R) (s : Str)
    {state : State R V σ} (sound : CacheSound g state) :
    Meets (run g actions (fuel + 1) (.infixLeft name atom operator) s) state
      (Says g (.parse (.infixLeft name atom operator)) s)
      (Starved g (fuel + 1) (.parse (.infixLeft name atom operator)) s) := by
  rw [run]
  refine meets_bind ((runs.1 atom s state sound).imp (fun _ _ said => said) ?_) ?_
  · intro stop starved
    refine starved.of_part fun bound guarded => ⟨bound, ?_, ?_⟩
    · simp only [Goal.guarded, Expr.guarded, Bool.and_eq_true] at guarded
      exact guarded.1.1.2
    · simp only [Goal.size, Expr.size]
      omega
  · rintro (_ | parsed) between ⟨soundBetween, matched⟩
    · exact meets_pure ⟨soundBetween, .no_operand matched⟩
    · refine (runs.2 name atom operator s parsed between soundBetween).imp ?_ ?_
      · rintro result last ⟨soundLast, matchedLast⟩
        exact ⟨soundLast, .chain matched matchedLast⟩
      · intro stop starved
        refine starved.of_part fun bound guarded => ⟨g.height, ?_, ?_⟩
        · simp only [Goal.guarded, Expr.guarded, Bool.and_eq_true, decide_true, true_and] at guarded ⊢
          exact ⟨⟨guarded.1.1.1, guarded.1.2⟩, guarded.2⟩
        · simp only [Goal.guarded, Expr.guarded, Bool.and_eq_true] at guarded
          have shrinks := g.weight_of_lt bound
            (matched.length.2 guarded.1.1.1.1)
          simp only [Goal.size, Expr.size]
          omega

theorem climb_says (runs : RunsSay g actions fuel) (name : R) (atom operator : Expr R) (start : Str)
    (left : Parsed V) {state : State R V σ} (sound : CacheSound g state) :
    Meets (climb g actions (fuel + 1) name atom operator start left) state
      (Says g (.climb atom operator) left.rest)
      (Starved g (fuel + 1) (.climb atom operator) left.rest) := by
  rw [climb]
  split
  · next ended =>
    rw [ended]
    refine meets_pure ⟨sound, ?_⟩
    rw [Option.map_some, ended]
    exact .at_end
  · next nonempty =>
    refine meets_bind ((runs.1 operator left.rest state sound).imp (fun _ _ said => said)
      fun _ => starved_operator le_rfl) ?_
    rintro (_ | op) between ⟨soundOp, matchedOp⟩
    · exact meets_pure ⟨soundOp, .no_operator nonempty matchedOp⟩
    · have opLength := matchedOp.length.1
      refine meets_bind ((runs.1 atom op.rest between soundOp).imp (fun _ _ said => said)
        fun _ => starved_operand opLength) ?_
      rintro (_ | right) between' ⟨soundRight, matchedRight⟩
      · exact meets_pure ⟨soundRight, .operand_missing nonempty matchedOp matchedRight⟩
      · have rightLength := matchedRight.length.1.trans opLength
        have looksOn : Meets
            (if right.rest = [] then pure none else run g actions fuel operator right.rest) between'
            (fun _ next => CacheSound g next)
            (Starved g (fuel + 1) (.climb atom operator) left.rest) := by
          split
          · exact meets_pure soundRight
          · exact (runs.1 operator right.rest between' soundRight).imp (fun _ _ said => said.1)
              fun _ => starved_operator rightLength
        refine meets_bind looksOn fun _ peeked soundPeeked => ?_
        refine meets_bind ((invoke_meets name _ peeked).imp (fun _ _ same => same)
          fun _ differs out => absurd out differs) ?_
        intro value after same
        have soundAfter : CacheSound g after := by
          unfold CacheSound
          rw [same]
          exact soundPeeked
        refine (runs.2 name atom operator start ⟨right.rest, [value], left.tokens⟩ after
          soundAfter).imp ?_ ?_
        · rintro result last ⟨soundLast, matchedLast⟩
          exact ⟨soundLast, .climb nonempty matchedOp matchedRight matchedLast⟩
        · intro stop starved out bound guarded
          refine starved_behind starved rightLength le_rfl (.inl ?_) (fun same => same) out bound guarded
          simp only [Goal.guarded, Bool.and_eq_true] at guarded
          exact (matchedRight.length.2 guarded.1.1.1.2).trans_le opLength

/-- A run says of a text what the grammar says, or has started with too little fuel. -/
theorem runs_say (g : Grammar R) (actions : Actions R V σ ε) (fuel : Nat) :
    RunsSay g actions fuel := by
  induction fuel with
  | zero => exact ⟨fun _ _ _ _ _ _ _ => Nat.zero_le _, fun _ _ _ _ _ _ _ _ _ _ => Nat.zero_le _⟩
  | succ fuel ih =>
      refine ⟨fun expr s state sound => ?_, fun name atom operator start left state sound =>
        climb_says ih name atom operator start left sound⟩
      cases expr with
      | literal text =>
          refine meets_pure ⟨sound, ?_⟩
          rw [Option.map_map]
          have : (Parsed.rest ∘ fun rest : Str => (⟨rest, [], []⟩ : Parsed V)) = id := rfl
          rw [this, Option.map_id]
          exact .literal
      | token lexeme =>
          refine meets_pure ⟨sound, ?_⟩
          rw [Option.map_map]
          exact .token
      | seq first second => exact run_seq_says ih first second s sound
      | choice first second => exact run_choice_says ih first second s sound
      | rep min max body => exact run_rep_says ih min max body s sound
      | rule name => exact run_rule_says ih name s sound
      | infixLeft name atom operator => exact run_infix_says ih name atom operator s sound

/-- The fuel of `parse` suffices. -/
theorem run_fuel_suffices (g : Grammar R) (actions : Actions R V σ ε) (start : R) (text : Str) (user : σ) :
    Meets (run g actions (g.fuel text.length) (.rule start) (g.skip text)) (State.fresh user)
      (Says g (.parse (.rule start)) (g.skip text)) (· ≠ .outOfFuel) := by
  refine ((runs_say g actions _).1 _ _ _ (cacheSound_fresh user)).imp (fun _ _ said => said) ?_
  intro stop starved out
  have enough := starved out g.height (decide_eq_true (g.rank_lt start))
  have shorter := g.weight_of_le g.height (g.skip_length text)
  simp only [Grammar.fuel, Goal.size, Expr.size] at enough
  omega

end Sound
section Parse

variable {R V σ ε : Type} [DecidableEq R] {g : Grammar R}

/-- The run of a parse ends with what the grammar says, or with an exception. -/
theorem parse_cases (g : Grammar R) (actions : Actions R V σ ε) (start : R) (text : Str) (user : σ) :
    (∃ found state,
      run g actions (g.fuel text.length) (.rule start) (g.skip text) (.fresh user) =
          .ok found state ∧
        parse g actions start text user = .ok (found.map Parsed.rest = some []) state.user ∧
          Matches g (.parse (.rule start)) (g.skip text) (found.map Parsed.rest)) ∨
    ∃ reason state,
      run g actions (g.fuel text.length) (.rule start) (g.skip text) (.fresh user) =
          .error (.raised reason) state ∧
        parse g actions start text user = .error reason state.user := by
  have enough := run_fuel_suffices g actions start text user
  unfold Meets at enough
  unfold parse
  cases ran : run g actions (g.fuel text.length) (.rule start) (g.skip text) (.fresh user) with
  | ok found state =>
      rw [ran] at enough
      exact .inl ⟨found, state, rfl, rfl, enough.2⟩
  | error stop state =>
      rw [ran] at enough
      cases stop with
      | raised reason => exact .inr ⟨reason, state, rfl, rfl⟩
      | outOfFuel => exact absurd rfl enough

/-- The answer of a parse that no exception ended is the grammar's. -/
theorem parse_eq_ok {actions : Actions R V σ ε} {start : R} {text : Str} {user next : σ}
    {answer : Bool} (parsed : parse g actions start text user = .ok answer next) :
    answer = true ↔ Matches g (.parse (.rule start)) (g.skip text) (some []) := by
  rcases parse_cases g actions start text user with
    ⟨found, state, _, ended, matched⟩ | ⟨_, _, _, ended⟩
  · cases ended.symm.trans parsed
    rw [decide_eq_true_iff]
    exact ⟨fun same => same ▸ matched, fun whole => matched.unique whole⟩
  · cases ended.symm.trans parsed

/-- Actions that never raise let a parse end. -/
theorem parse_total (actions : Actions R V σ PEmpty) (start : R) (text : Str) (user : σ) :
    ∃ answer next, parse g actions start text user = .ok answer next := by
  rcases parse_cases g actions start text user with
    ⟨_, _, _, ended, _⟩ | ⟨impossible, _, _, _⟩
  · exact ⟨_, _, ended⟩
  · exact impossible.elim

end Parse

end Peg
