import FlexConfig.Foundation.Packrat
import Mathlib.Data.List.Forall2

/-! # Two sets of actions on one grammar

Runs of one grammar with different actions match the same text. When the actions
answer alike, in the sense of a `Simulation`, their values and their states stay in
step through every run, the failed attempts included (`Simulation.parse`). What
every action keeps of its state, a run keeps (`run_preserves`).
-/

namespace Peg

open Procedure

section Preserved

variable {ε σ α β : Type}

/-- Whatever a computation does, it keeps a property of the state. -/
def Preserves (kept : σ → Prop) (body : EStateM ε σ α) : Prop :=
  ∀ state, kept state → kept (final (body state))

variable {kept : σ → Prop}

theorem preserves_pure (value : α) : Preserves kept (pure value : EStateM ε σ α) :=
  fun _ holds => holds

theorem preserves_bind {first : EStateM ε σ α} {next : α → EStateM ε σ β}
    (preserves : Preserves kept first) (preservesNext : ∀ value, Preserves kept (next value)) :
    Preserves kept (first >>= next) := by
  intro state holds
  have between := preserves state holds
  cases ran : first state with
  | ok value middle =>
      rw [ran] at between
      rw [bind_of_ok ran]
      exact preservesNext value middle between
  | error reason middle =>
      rw [ran] at between
      rw [bind_of_error ran]
      exact between

end Preserved

section RunPreserves

variable {R V σ ε : Type} {g : Grammar R} {actions : Actions R V σ ε} {kept : σ → Prop}

/-- Every action keeps a property of the actions' state. -/
def Actions.Preserve (actions : Actions R V σ ε) (kept : σ → Prop) : Prop :=
  ∀ name vs, Preserves kept (actions.reduce name vs)

theorem invoke_preserves (preserve : actions.Preserve kept) (name : R) (vs : SemanticValues V) :
    Preserves (kept ·.user) (actions.invoke name vs) := by
  intro state holds
  have after := preserve name vs state.user holds
  unfold Actions.invoke
  cases reduced : actions.reduce name vs state.user with
  | ok value user => rwa [reduced] at after
  | error reason user => rwa [reduced] at after

variable [DecidableEq R]

theorem remember_preserves (name : R) (s : Str) (entry : Option (Str × V)) :
    Preserves (kept ·.user) (remember name s entry : Matching R V σ ε PUnit) :=
  fun _ holds => holds

/-- What every action keeps, a run keeps. -/
theorem run_preserves (preserve : actions.Preserve kept) (fuel : Nat) :
    (∀ expr s, Preserves (kept ·.user) (run g actions fuel expr s)) ∧
      ∀ name atom operator start left,
        Preserves (kept ·.user) (climb g actions fuel name atom operator start left) := by
  induction fuel with
  | zero => exact ⟨fun _ _ _ holds => holds, fun _ _ _ _ _ _ holds => holds⟩
  | succ fuel ih =>
      obtain ⟨runs, climbs⟩ := ih
      -- what was gathered and what follows it
      have followed : ∀ (parsed : Parsed V) expr s, Preserves (kept ·.user) (do
          let following ← run g actions fuel expr s
          return following.map parsed.append) :=
        fun parsed expr s => preserves_bind (runs expr s) fun _ => preserves_pure _
      refine ⟨fun expr s => ?_, fun name atom operator start left => ?_⟩
      · cases expr with
        | literal text => exact preserves_pure _
        | token lexeme => exact preserves_pure _
        | seq first second =>
            refine preserves_bind (runs first s) fun result => ?_
            cases result with
            | none => exact preserves_pure _
            | some parsed => exact followed parsed second _
        | choice first second =>
            refine preserves_bind (runs first s) fun result => ?_
            cases result with
            | none => exact runs second s
            | some parsed => exact preserves_pure _
        | rep min max body =>
            cases min with
            | zero =>
                rw [run]
                split
                · exact preserves_pure _
                · refine preserves_bind (runs body s) fun result => ?_
                  cases result with
                  | none => exact preserves_pure _
                  | some parsed => exact followed parsed _ _
            | succ min =>
                refine preserves_bind (runs body s) fun result => ?_
                cases result with
                | none => exact preserves_pure _
                | some parsed => exact followed parsed _ _
        | rule name =>
            refine preserves_bind (fun _ holds => holds) fun (state : State R V σ) => ?_
            cases state.cache name s with
            | some entry => exact preserves_pure _
            | none =>
                refine preserves_bind (runs (g.body name) s) fun result => ?_
                cases result with
                | none =>
                    exact preserves_bind (remember_preserves _ _ _) fun _ => preserves_pure _
                | some parsed =>
                    refine preserves_bind (invoke_preserves preserve _ _) fun value => ?_
                    exact preserves_bind (remember_preserves _ _ _) fun _ => preserves_pure _
        | infixLeft name atom operator =>
            refine preserves_bind (runs atom s) fun result => ?_
            cases result with
            | none => exact preserves_pure _
            | some parsed => exact climbs _ _ _ _ _
      · rw [climb]
        split
        · exact preserves_pure _
        · refine preserves_bind (runs operator left.rest) fun result => ?_
          cases result with
          | none => exact preserves_pure _
          | some op =>
              refine preserves_bind (runs atom op.rest) fun result => ?_
              cases result with
              | none => exact preserves_pure _
              | some right =>
                  refine preserves_bind ?_ fun _ => ?_
                  · split
                    · exact preserves_pure _
                    · exact runs operator right.rest
                  · exact preserves_bind (invoke_preserves preserve _ _) fun _ => climbs _ _ _ _ _

end RunPreserves

section Simulation

variable {R V W σ τ ε : Type}

/-- Two sets of actions that answer alike. The second never raises; where the first
raises the second has broken off, which it does not take back. Values that
correspond once correspond from then on. -/
structure Simulation (code : Actions R V σ ε) (reading : Actions R W τ PEmpty) where
  states : σ → τ → Prop
  values : σ → V → W → Prop
  broken : τ → Prop
  empty : ∀ user, values user code.empty reading.empty
  keepsBroken : reading.Preserve broken
  step : ∀ name vs ws user other, states user other → List.Forall₂ (values user) vs.values ws.values →
    vs.tokens = ws.tokens → vs.sv = ws.sv →
    match code.action name, reading.action name with
    | none, none => True
    | some act, some read =>
      match act vs user, read ws other with
      | .ok v next, .ok w after =>
        states next after ∧ values next v w ∧ ∀ x y, values user x y → values next x y
      | .error _ _, .ok _ after => broken after
      | _, .error impossible _ => impossible.elim
    | _, _ => False

variable {code : Actions R V σ ε} {reading : Actions R W τ PEmpty}

namespace Simulation

variable (sim : Simulation code reading)

/-- Values that correspond in one state correspond in another. -/
def Grows (user next : σ) : Prop := ∀ x y, sim.values user x y → sim.values next x y

/-- Entries of the two caches. -/
def Entries (user : σ) : Option (Str × V) → Option (Str × W) → Prop :=
  Option.Rel fun x y => x.1 = y.1 ∧ sim.values user x.2 y.2

/-- States of the two runs that correspond. -/
structure States (state : State R V σ) (other : State R W τ) : Prop where
  users : sim.states state.user other.user
  caches : ∀ name s,
    Option.Rel (sim.Entries state.user) (state.cache name s) (other.cache name s)

/-- What the two runs have gathered corresponds. -/
structure Gathered (user : σ) (left : Parsed V) (right : Parsed W) : Prop where
  rest : left.rest = right.rest
  values : List.Forall₂ (sim.values user) left.values right.values
  tokens : left.tokens = right.tokens

/-- How two computations end that stay in step: they return related values in
corresponding states, the second has broken off where the first raises, or both run
out of fuel. -/
inductive Outcome {α β : Type} (rel : σ → α → β → Prop) (user : σ) :
    EStateM.Result (Stop ε) (State R V σ) α → EStateM.Result (Stop PEmpty) (State R W τ) β → Prop
  | returns {value : α} {valueOther : β} {next : State R V σ} {nextOther : State R W τ} :
      sim.States next nextOther → sim.Grows user next.user → rel next.user value valueOther →
        Outcome rel user (.ok value next) (.ok valueOther nextOther)
  | raises {reason : ε} {next : State R V σ}
      {result : EStateM.Result (Stop PEmpty) (State R W τ) β} :
      sim.broken (final result).user → Outcome rel user (.error (.raised reason) next) result
  | starves {next : State R V σ} {nextOther : State R W τ} :
      Outcome rel user (.error .outOfFuel next) (.error .outOfFuel nextOther)

/-- Two computations stay in step from two states. -/
def InStep {α β : Type} (rel : σ → α → β → Prop) (state : State R V σ) (other : State R W τ)
    (body : Matching R V σ ε α) (bodyOther : Matching R W τ PEmpty β) : Prop :=
  sim.Outcome rel state.user (body state) (bodyOther other)

variable {sim} {α β γ δ : Type} {state : State R V σ} {other : State R W τ}

theorem Entries.grow {user next : σ} (grows : sim.Grows user next) {left : Option (Str × V)}
    {right : Option (Str × W)} (entries : sim.Entries user left right) :
    sim.Entries next left right := by
  cases entries with
  | some same => exact .some ⟨same.1, grows _ _ same.2⟩
  | none => exact .none

theorem caches_grow {user next : σ} (grows : sim.Grows user next)
    {left : Option (Option (Str × V))} {right : Option (Option (Str × W))}
    (same : Option.Rel (sim.Entries user) left right) : Option.Rel (sim.Entries next) left right := by
  cases same with
  | some entries => exact .some (entries.grow grows)
  | none => exact .none

theorem Gathered.grow {user next : σ} (grows : sim.Grows user next) {left : Parsed V}
    {right : Parsed W} (gathered : sim.Gathered user left right) :
    sim.Gathered next left right :=
  ⟨gathered.rest, List.Forall₂.imp (fun x y same => grows x y same) gathered.values,
    gathered.tokens⟩

theorem Gathered.append {user : σ} {left more : Parsed V} {right moreOther : Parsed W}
    (first : sim.Gathered user left right) (second : sim.Gathered user more moreOther) :
    sim.Gathered user (left.append more) (right.append moreOther) :=
  ⟨second.rest, List.rel_append first.values second.values, congrArg₂ _ first.tokens second.tokens⟩

theorem inStep_pure {rel : σ → α → β → Prop} {value : α} {valueOther : β}
    (states : sim.States state other) (related : rel state.user value valueOther) :
    sim.InStep rel state other (pure value) (pure valueOther) :=
  .returns states (fun _ _ same => same) related

theorem inStep_bind {rel : σ → α → β → Prop} {relNext : σ → γ → δ → Prop}
    {body : Matching R V σ ε α} {bodyOther : Matching R W τ PEmpty β}
    {next : α → Matching R V σ ε γ} {nextOther : β → Matching R W τ PEmpty δ}
    (first : sim.InStep rel state other body bodyOther)
    (kept : ∀ value, Preserves (sim.broken ·.user) (nextOther value))
    (second : ∀ value valueOther between betweenOther, sim.States between betweenOther →
      sim.Grows state.user between.user → rel between.user value valueOther →
        sim.InStep relNext between betweenOther (next value) (nextOther valueOther)) :
    sim.InStep relNext state other (body >>= next) (bodyOther >>= nextOther) := by
  unfold InStep at first
  generalize ran : body state = result at first
  generalize ranOther : bodyOther other = resultOther at first
  cases first with
  | @returns value valueOther between betweenOther states grows related =>
      have following := second value valueOther between betweenOther states grows related
      unfold InStep at following ⊢
      rw [bind_of_ok ran, bind_of_ok ranOther]
      generalize next value between = last at following
      generalize nextOther valueOther betweenOther = lastOther at following
      cases following with
      | returns statesLast growsLast relatedLast =>
          exact .returns statesLast (fun x y same => growsLast x y (grows x y same)) relatedLast
      | raises broken => exact .raises broken
      | starves => exact .starves
  | raises broken =>
      unfold InStep
      rw [bind_of_error ran]
      refine .raises ?_
      cases resultOther with
      | ok valueOther betweenOther =>
          rw [bind_of_ok ranOther]
          exact kept valueOther betweenOther broken
      | error stop betweenOther =>
          rw [bind_of_error ranOther]
          exact broken
  | starves =>
      unfold InStep
      rw [bind_of_error ran, bind_of_error ranOther]
      exact .starves

theorem inStep_get {rel : σ → γ → δ → Prop} {next : State R V σ → Matching R V σ ε γ}
    {nextOther : State R W τ → Matching R W τ PEmpty δ}
    (inStep : sim.InStep rel state other (next state) (nextOther other)) :
    sim.InStep rel state other (get >>= next) (get >>= nextOther) := inStep

/-- What an expression gathers in the two runs. -/
def Found (sim : Simulation code reading) (user : σ) : Option (Parsed V) → Option (Parsed W) → Prop :=
  Option.Rel (sim.Gathered user)

theorem inStep_invoke (states : sim.States state other) (name : R) {vs : SemanticValues V}
    {ws : SemanticValues W} (values : List.Forall₂ (sim.values state.user) vs.values ws.values)
    (tokens : vs.tokens = ws.tokens) (sv : vs.sv = ws.sv) :
    sim.InStep sim.values state other (code.invoke name vs) (reading.invoke name ws) := by
  have step := sim.step name vs ws state.user other.user states.users values tokens sv
  unfold InStep Actions.invoke Actions.reduce
  cases hasAct : code.action name with
  | none =>
      cases hasRead : reading.action name with
      | none =>
          refine .returns states (fun _ _ same => same) ?_
          cases vs with
          | mk vsValues _ _ =>
              cases ws with
              | mk wsValues _ _ =>
                  cases values with
                  | nil => exact sim.empty _
                  | cons head _ => exact head
      | some read =>
          rw [hasAct, hasRead] at step
          exact step.elim
  | some act =>
      cases hasRead : reading.action name with
      | none =>
          rw [hasAct, hasRead] at step
          exact step.elim
      | some read =>
          rw [hasAct, hasRead] at step
          dsimp only at step ⊢
          cases acted : act vs state.user with
          | ok v next =>
              cases readIt : read ws other.user with
              | ok w after =>
                  rw [acted, readIt] at step
                  obtain ⟨users, same, grows⟩ := step
                  have caches := fun rule t => caches_grow grows (states.caches rule t)
                  exact .returns ⟨users, caches⟩ grows same
              | error impossible _ => exact impossible.elim
          | error reason next =>
              cases readIt : read ws other.user with
              | ok w after =>
                  rw [acted, readIt] at step
                  exact .raises step
              | error impossible _ => exact impossible.elim

variable [DecidableEq R]

theorem inStep_remember (states : sim.States state other) (name : R) (s : Str)
    {entry : Option (Str × V)} {entryOther : Option (Str × W)}
    (entries : sim.Entries state.user entry entryOther) :
    sim.InStep (fun _ _ _ => True) state other (remember name s entry)
      (remember name s entryOther) := by
  refine .returns ⟨states.users, fun rule t => ?_⟩ (fun _ _ same => same) trivial
  dsimp only
  split
  · exact .some entries
  · exact states.caches rule t

variable {g : Grammar R}

variable (sim g) in
/-- What the runs with some fuel have to do. -/
def RunsInStep (fuel : Nat) : Prop :=
  (∀ expr s state other, sim.States state other →
    sim.InStep sim.Found state other (run g code fuel expr s) (run g reading fuel expr s)) ∧
  (∀ name atom operator start left right state other, sim.States state other →
    sim.Gathered state.user left right →
      sim.InStep sim.Found state other (climb g code fuel name atom operator start left)
        (climb g reading fuel name atom operator start right))

variable {fuel : Nat}

/-- What follows what has been gathered. -/
theorem inStep_followed (runs : sim.RunsInStep g fuel) (states : sim.States state other)
    {left : Parsed V} {right : Parsed W} (gathered : sim.Gathered state.user left right)
    (expr : Expr R) :
    sim.InStep sim.Found state other
      (do
        let following ← run g code fuel expr left.rest
        return following.map left.append)
      (do
        let following ← run g reading fuel expr right.rest
        return following.map right.append) := by
  rw [← gathered.rest]
  refine inStep_bind (runs.1 expr left.rest state other states) (fun _ => preserves_pure _) ?_
  intro following followingOther between betweenOther statesBetween grows found
  refine inStep_pure statesBetween ?_
  cases found with
  | some more => exact .some ((gathered.grow grows).append more)
  | none => exact .none

theorem followed_preserves (right : Parsed W) (expr : Expr R) (s : Str) :
    Preserves (sim.broken ·.user) (do
      let following ← run g reading fuel expr s
      return following.map right.append) :=
  preserves_bind ((run_preserves sim.keepsBroken fuel).1 expr s) fun _ => preserves_pure _

theorem rule_inStep (runs : sim.RunsInStep g fuel) (name : R) (s : Str)
    (states : sim.States state other) :
    sim.InStep sim.Found state other (run g code (fuel + 1) (.rule name) s)
      (run g reading (fuel + 1) (.rule name) s) := by
  have keeps := run_preserves (g := g) sim.keepsBroken fuel
  rw [run, run]
  refine inStep_get ?_
  have entry := states.caches name s
  generalize state.cache name s = looked at entry
  generalize other.cache name s = lookedOther at entry
  cases entry with
  | some entries =>
      refine inStep_pure states ?_
      cases entries with
      | some same => exact .some ⟨same.1, .cons same.2 .nil, rfl⟩
      | none => exact .none
  | none =>
      refine inStep_bind (runs.1 (g.body name) s state other states) ?_ ?_
      · rintro (_ | right)
        · exact preserves_bind (remember_preserves _ _ _) fun _ => preserves_pure _
        · refine preserves_bind (invoke_preserves sim.keepsBroken _ _) fun value => ?_
          exact preserves_bind (remember_preserves _ _ _) fun _ => preserves_pure _
      · intro result resultOther between betweenOther statesBetween grows found
        cases found with
        | none =>
            refine inStep_bind (inStep_remember statesBetween name s .none)
              (fun _ => preserves_pure _) ?_
            exact fun _ _ last lastOther statesLast _ _ => inStep_pure statesLast .none
        | @some left right gathered =>
            have sameText : consumed s left.rest = consumed s right.rest := by rw [gathered.rest]
            refine inStep_bind (inStep_invoke statesBetween name gathered.values gathered.tokens
              sameText) ?_ ?_
            · intro value
              exact preserves_bind (remember_preserves _ _ _) fun _ => preserves_pure _
            · intro value valueOther after afterOther statesAfter growsAfter same
              refine inStep_bind (inStep_remember statesAfter name s
                (.some ⟨gathered.rest, same⟩)) (fun _ => preserves_pure _) ?_
              intro _ _ last lastOther statesLast growsLast _
              refine inStep_pure statesLast (.some ⟨gathered.rest, .cons ?_ .nil, rfl⟩)
              exact growsLast _ _ same

theorem climb_inStep (runs : sim.RunsInStep g fuel) (name : R) (atom operator : Expr R)
    (start : Str) {left : Parsed V} {right : Parsed W} (states : sim.States state other)
    (gathered : sim.Gathered state.user left right) :
    sim.InStep sim.Found state other (climb g code (fuel + 1) name atom operator start left)
      (climb g reading (fuel + 1) name atom operator start right) := by
  obtain ⟨keeps, keepsClimb⟩ := run_preserves (g := g) sim.keepsBroken fuel
  have keepsLook : ∀ rest, Preserves (sim.broken ·.user)
      (if rest = [] then pure none else run g reading fuel operator rest) := by
    intro rest
    split
    · exact preserves_pure _
    · exact keeps _ _
  have keepsRound : ∀ vs rest, Preserves (sim.broken ·.user) (do
      let value ← reading.invoke name vs
      climb g reading fuel name atom operator start ⟨rest, [value], right.tokens⟩) :=
    fun vs rest => preserves_bind (invoke_preserves sim.keepsBroken _ _) fun _ =>
      keepsClimb _ _ _ _ _
  rw [climb, climb, ← gathered.rest]
  split
  · exact inStep_pure states (.some gathered)
  · refine inStep_bind (runs.1 operator left.rest state other states) ?_ ?_
    · rintro (_ | op)
      · exact preserves_pure _
      · refine preserves_bind (keeps _ _) fun result => ?_
        cases result with
        | none => exact preserves_pure _
        | some operand => exact preserves_bind (keepsLook _) fun _ => keepsRound _ _
    · intro result resultOther between betweenOther statesBetween grows found
      cases found with
      | none => exact inStep_pure statesBetween (.some (gathered.grow grows))
      | @some op opOther gatheredOp =>
          have operandRead : sim.InStep sim.Found between betweenOther
              (run g code fuel atom op.rest) (run g reading fuel atom opOther.rest) := by
            rw [← gatheredOp.rest]
            exact runs.1 atom op.rest between betweenOther statesBetween
          refine inStep_bind operandRead ?_ ?_
          · rintro (_ | operand)
            · exact preserves_pure _
            · exact preserves_bind (keepsLook _) fun _ => keepsRound _ _
          · intro result resultOther at_ atOther statesAt growsAt found
            cases found with
            | none => exact inStep_pure statesAt .none
            | @some operand operandOther gatheredOperand =>
                have looksOn : sim.InStep sim.Found at_ atOther
                    (if operand.rest = [] then pure none else run g code fuel operator operand.rest)
                    (if operandOther.rest = [] then pure none
                      else run g reading fuel operator operandOther.rest) := by
                  rw [← gatheredOperand.rest]
                  split
                  · exact inStep_pure statesAt .none
                  · exact runs.1 operator operand.rest at_ atOther statesAt
                refine inStep_bind looksOn ?_ ?_
                · exact fun _ => keepsRound _ _
                · intro _ _ looked lookedOther statesLooked growsLooked _
                  have leftNow := (((gathered.grow grows).grow growsAt).grow growsLooked)
                  have opNow := ((gatheredOp.grow growsAt).grow growsLooked)
                  have operandNow := gatheredOperand.grow growsLooked
                  refine inStep_bind (inStep_invoke statesLooked name ?_ gathered.tokens ?_) ?_ ?_
                  · exact List.rel_append (List.rel_append leftNow.values
                      (List.forall₂_take 1 opNow.values)) (List.forall₂_take 1 operandNow.values)
                  · rw [operandNow.rest]
                  · exact fun _ => keepsClimb _ _ _ _ _
                  · intro value valueOther after afterOther statesAfter growsAfter same
                    exact runs.2 _ _ _ _ _ _ _ _ statesAfter
                      ⟨operandNow.rest, .cons same .nil, gathered.tokens⟩

/-- Two runs with actions that answer alike stay in step. -/
theorem runs_inStep (fuel : Nat) : sim.RunsInStep g fuel := by
  induction fuel with
  | zero => exact ⟨fun _ _ _ _ _ => .starves, fun _ _ _ _ _ _ _ _ _ _ => .starves⟩
  | succ fuel ih =>
      have keeps := (run_preserves (g := g) sim.keepsBroken fuel).1
      refine ⟨fun expr s state other states => ?_,
        fun name atom operator start left right state other states gathered =>
          climb_inStep ih name atom operator start states gathered⟩
      cases expr with
      | literal text =>
          refine inStep_pure states ?_
          cases g.literalRest text s with
          | some rest => exact .some ⟨rfl, .nil, rfl⟩
          | none => exact .none
      | token lexeme =>
          refine inStep_pure states ?_
          cases lexeme.strip s with
          | some rest => exact .some ⟨rfl, .nil, rfl⟩
          | none => exact .none
      | seq first second =>
          rw [run, run]
          refine inStep_bind (ih.1 first s state other states) ?_ ?_
          · rintro (_ | right)
            · exact preserves_pure _
            · exact followed_preserves right _ _
          · intro result resultOther between betweenOther statesBetween grows found
            cases found with
            | none => exact inStep_pure statesBetween .none
            | @some left right gathered =>
                exact inStep_followed ih statesBetween gathered _
      | choice first second =>
          rw [run, run]
          refine inStep_bind (ih.1 first s state other states) ?_ ?_
          · rintro (_ | right)
            · exact keeps _ _
            · exact preserves_pure _
          · intro result resultOther between betweenOther statesBetween grows found
            cases found with
            | none => exact ih.1 second s between betweenOther statesBetween
            | some gathered => exact inStep_pure statesBetween (.some gathered)
      | rep min max body =>
          cases min with
          | zero =>
              rw [run, run]
              split
              · exact inStep_pure states (.some ⟨rfl, .nil, rfl⟩)
              · refine inStep_bind (ih.1 body s state other states) ?_ ?_
                · rintro (_ | right)
                  · exact preserves_pure _
                  · exact followed_preserves right _ _
                · intro result resultOther between betweenOther statesBetween grows found
                  cases found with
                  | none => exact inStep_pure statesBetween (.some ⟨rfl, .nil, rfl⟩)
                  | @some left right gathered =>
                      exact inStep_followed ih statesBetween gathered _
          | succ min =>
              rw [run, run]
              refine inStep_bind (ih.1 body s state other states) ?_ ?_
              · rintro (_ | right)
                · exact preserves_pure _
                · exact followed_preserves right _ _
              · intro result resultOther between betweenOther statesBetween grows found
                cases found with
                | none => exact inStep_pure statesBetween .none
                | @some left right gathered =>
                    exact inStep_followed ih statesBetween gathered _
      | rule name => exact rule_inStep ih name s states
      | infixLeft name atom operator =>
          rw [run, run]
          refine inStep_bind (ih.1 atom s state other states) ?_ ?_
          · rintro (_ | right)
            · exact preserves_pure _
            · exact (run_preserves (g := g) sim.keepsBroken fuel).2 _ _ _ _ _
          · intro result resultOther between betweenOther statesBetween grows found
            cases found with
            | none => exact inStep_pure statesBetween .none
            | some gathered => exact ih.2 _ _ _ _ _ _ _ _ statesBetween gathered

end Simulation

variable [DecidableEq R] {g : Grammar R}

/-- Parses with actions that answer alike end alike, or the second has broken off
where the first raises. -/
theorem Simulation.parse {code : Actions R V σ ε} {reading : Actions R W τ PEmpty}
    (sim : Simulation code reading) (start : R) (text : Str) {user : σ} {other : τ}
    (states : sim.states user other) :
    (∃ answer next after, Peg.parse g code start text user = .ok answer next ∧
      Peg.parse g reading start text other = .ok answer after ∧ sim.states next after) ∨
    (∃ reason next answer after, Peg.parse g code start text user = .error reason next ∧
      Peg.parse g reading start text other = .ok answer after ∧ sim.broken after) := by
  have inStep := (sim.runs_inStep (g := g) (g.fuel text.length)).1 (.rule start) (g.skip text)
    (.fresh user) (.fresh other) ⟨states, fun _ _ => .none⟩
  unfold InStep at inStep
  rcases parse_cases g reading start text other with
    ⟨foundOther, stateOther, ranOther, endedOther, _⟩ | ⟨impossible, _, _, _⟩
  · rw [ranOther] at inStep
    rcases parse_cases g code start text user with
      ⟨found, state, ran, ended, _⟩ | ⟨reason, state, ran, ended⟩
    · rw [ran] at inStep
      cases inStep with
      | returns after _ found =>
          refine .inl ⟨_, _, _, ended, ?_, after.users⟩
          cases found with
          | none => exact endedOther
          | some gathered =>
              rw [Option.map_some, gathered.rest]
              exact endedOther
    · rw [ran] at inStep
      cases inStep with
      | raises broken => exact .inr ⟨_, _, _, _, ended, endedOther, broken⟩
  · exact impossible.elim

end Simulation

end Peg
