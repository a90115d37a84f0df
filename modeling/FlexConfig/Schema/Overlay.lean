import FlexConfig.Schema.Plan
import FlexConfig.Tree.Content

/-! # Loading over what is there

The loader goes inside a child only after it has added it. On a composite that has children
already it therefore builds what it builds on a new one: the children it adds take the place of
those of the same names, and the others are left (`buildAll_over`). Whatever it does, the children
of every composite stay in name order.
-/

namespace FlexConfig

open Procedure Schema

namespace PlanStep

/-- A step that goes inside a child comes after one that has added it, or the child is known. -/
def Grounded (known : List Str) : List PlanStep → Prop
  | [] => True
  | .add name _ _ :: rest => Grounded (name :: known) rest
  | .inside name _ :: rest => name ∈ known ∧ Grounded known rest

/-- The names that steps add. -/
def added : List PlanStep → List Str
  | [] => []
  | .add name _ _ :: rest => name :: added rest
  | .inside _ _ :: rest => added rest

variable {known more : List Str} {steps first second : List PlanStep}

theorem Grounded.mono (grounded : Grounded known steps) (included : known ⊆ more) :
    Grounded more steps := by
  induction steps generalizing known more with
  | nil => trivial
  | cons step rest ih =>
      cases step with
      | add name jschema child => exact ih grounded (List.cons_subset_cons name included)
      | inside name inner => exact ⟨included grounded.1, ih grounded.2 included⟩

theorem Grounded.append (grounded : Grounded known first)
    (later : Grounded (known ++ added first) second) : Grounded known (first ++ second) := by
  induction first generalizing known with
  | nil =>
      rw [added, List.append_nil] at later
      exact later
  | cons step rest ih =>
      cases step with
      | add name jschema child =>
          refine ih grounded (later.mono ?_)
          rw [added]
          exact List.perm_middle.subset
      | inside name inner => exact ⟨grounded.1, ih grounded.2 later⟩

theorem added_append : added (first ++ second) = added first ++ added second := by
  induction first with
  | nil => rfl
  | cons step rest ih =>
      cases step with
      | add name jschema child => exact congrArg (name :: ·) ih
      | inside name inner => exact ih

theorem Grounded.beneath {cursor : Option Str} (grounded : Grounded [] steps)
    (isKnown : ∀ name ∈ cursor, name ∈ known) : Grounded known (beneath cursor steps) := by
  cases cursor with
  | none => exact grounded.mono (List.nil_subset _)
  | some name => exact ⟨isKnown name rfl, trivial⟩

end PlanStep

open PlanStep

variable {env : Env}

theorem grounded_itemsPlan (jschema : Json) (items : List Json) :
    Grounded [] (itemsPlan jschema items) := by
  have each : ∀ known, Grounded known (itemsPlan jschema items) := by
    induction items with
    | nil => exact fun _ => trivial
    | cons item rest ih =>
        intro known
        unfold itemsPlan
        rw [List.map_cons]
        cases item.getString <;> exact ih _
  exact each []

/-- The composite added last is known where it was, or it has been added. -/
theorem mem_cursorAfter {jconfig : Json} {cursor : Option Str} {members : List (Str × Json)}
    {name : Str} (member : name ∈ cursorAfter jconfig cursor members) :
    name ∈ cursor ∨ name ∈ added (membersPlan env jconfig cursor members) := by
  induction members generalizing cursor with
  | nil => exact .inl member
  | cons entry rest ih =>
      obtain ⟨key, jschema⟩ := entry
      rw [cursorAfter] at member
      rw [membersPlan]
      cases found : jconfig.find key with
      | none =>
          rw [found] at member
          exact ih member
      | some value =>
          rw [found] at member
          dsimp only
          by_cases array : jschema.hasType Schema.TypeName.ARRAY = true
          · rw [if_neg (by simp [array])] at member
            rw [if_pos array]
            refine (ih member).imp_right fun later => ?_
            rw [added, added, added_append]
            exact List.mem_cons_of_mem _ (List.mem_append_right _ later)
          · rw [if_neg array]
            by_cases leaf : isLeafSchema jschema = true
            · rw [if_neg (by simp [leaf])] at member
              rw [if_pos leaf]
              exact (ih member).imp_right (List.mem_cons_of_mem _)
            · rw [if_pos (by simp [array, leaf])] at member
              rw [if_neg leaf, added, added]
              rcases ih member with here | later
              · exact .inr (Option.mem_some_iff.mp here ▸ List.mem_cons_self)
              · exact .inr (List.mem_cons_of_mem _ later)

theorem grounded_matchingPlan (key : Str) (value : Json) (patterns : List (Str × Json)) :
    Grounded [] (matchingPlan env key value patterns) := by
  induction patterns with
  | nil => exact trivial
  | cons entry rest ih =>
      obtain ⟨pattern, jschema⟩ := entry
      rw [matchingPlan]
      refine Grounded.append ?_ (ih.mono (List.nil_subset _))
      split
      · trivial
      · trivial
      · change Grounded [key] _
        split
        · exact ⟨List.mem_cons_self, trivial⟩
        · trivial

theorem grounded_patternsPlan (jconfig jschema : Json) :
    Grounded [] (patternsPlan env jconfig jschema) := by
  cases jschema with
  | object patterns =>
      rw [patternsPlan]
      induction jconfig.items with
      | nil => trivial
      | cons entry others ih =>
          rw [List.flatMap_cons]
          exact (grounded_matchingPlan entry.1 entry.2 patterns).append
            (ih.mono (List.nil_subset _))
  | null | bool | number | string | array => exact trivial

mutual

/-- The loader goes inside a child after it has added it. -/
theorem grounded_plan : ∀ (jconfig jschema : Json), Grounded [] (plan env jconfig jschema)
  | jconfig, .object members => by
      rw [plan]
      refine (grounded_membersPlan jconfig none members [] (fun _ absent => nomatch absent)).append ?_
      refine grounded_keywordsPlan jconfig _ members _ fun name member => ?_
      rcases mem_cursorAfter member with absent | inside
      · cases absent
      · exact inside
  | _, .null | _, .bool _ | _, .number _ | _, .string _ | _, .array _ => trivial
termination_by structural _ jschema => jschema

theorem grounded_membersPlan : ∀ (jconfig : Json) (cursor : Option Str)
    (members : List (Str × Json)) (known : List Str), (∀ name ∈ cursor, name ∈ known) →
      Grounded known (membersPlan env jconfig cursor members)
  | _, _, [], _, _ => trivial
  | jconfig, cursor, (key, jschema) :: rest, known, isKnown => by
      rw [membersPlan]
      cases jconfig.find key with
      | none => exact grounded_membersPlan jconfig cursor rest known isKnown
      | some value =>
          dsimp only
          have stillKnown : ∀ name ∈ cursor, name ∈ key :: known :=
            fun name member => List.mem_cons_of_mem _ (isKnown name member)
          split
          · refine ⟨List.mem_cons_self, ?_⟩
            refine ((grounded_plan value jschema).beneath stillKnown).append ?_
            exact grounded_membersPlan jconfig cursor rest _ fun name member =>
              List.mem_append_left _ (stillKnown name member)
          split
          · exact grounded_membersPlan jconfig cursor rest _ stillKnown
          · refine ⟨List.mem_cons_self, grounded_membersPlan jconfig (some key) rest _ ?_⟩
            exact fun name member => Option.mem_some_iff.mp member ▸ List.mem_cons_self
termination_by structural _ _ members => members

theorem grounded_keywordsPlan : ∀ (jconfig : Json) (cursor : Option Str)
    (members : List (Str × Json)) (known : List Str), (∀ name ∈ cursor, name ∈ known) →
      Grounded known (keywordsPlan env jconfig cursor members)
  | _, _, [], _, _ => trivial
  | jconfig, cursor, (key, jschema) :: rest, known, isKnown => by
      rw [keywordsPlan]
      have others := grounded_keywordsPlan jconfig cursor rest known isKnown
      have first : Grounded known (if key = Keyword.PATTERN_PROPERTIES then
            beneath cursor (patternsPlan env jconfig jschema)
          else if key = Keyword.PROPERTIES then beneath cursor (plan env jconfig jschema)
          else []) := by
        split
        · exact (grounded_patternsPlan jconfig jschema).beneath isKnown
        split
        · exact (grounded_plan jconfig jschema).beneath isKnown
        · trivial
      exact first.append (others.mono (List.subset_append_left _ _))
termination_by structural _ _ members => members

end

section Over

variable {known : List Str} {steps : List PlanStep} {start fresh node loaded : Node}

/-- A composite has the children of another one where that has them, and else those of a third. -/
structure Over (start loaded node : Node) : Prop where
  composite : node.isLeaf = false
  children : ∀ name, node.findNode name = (loaded.findNode name).or (start.findNode name)

theorem isLeaf_add (node : Node) (name : Str) (child : Node) :
    (node.add name child).isLeaf = node.isLeaf := by
  cases node <;> rfl

theorem Over.add (laid : Over start fresh node) (composite : fresh.isLeaf = false) (name : Str)
    (child : Node) : Over start (fresh.add name child) (node.add name child) := by
  refine ⟨(isLeaf_add ..).trans laid.composite, fun query => ?_⟩
  rw [Node.findNode_add laid.composite, Node.findNode_add composite]
  split
  · rfl
  · exact laid.children query

/-- Steps that go only inside what they have added build the same on a composite that has
children already. -/
theorem buildAll_over (grounded : Grounded known steps) (composite : fresh.isLeaf = false)
    (isKnown : ∀ name ∈ known, (fresh.findNode name).isSome = true) (laid : Over start fresh node)
    (built : buildAll steps fresh = .ok loaded) :
    ∃ after, buildAll steps node = .ok after ∧ Over start loaded after := by
  induction steps generalizing known fresh node with
  | nil =>
      cases built
      exact ⟨node, rfl, laid⟩
  | cons step rest ih =>
      obtain ⟨next, taken, built⟩ := except_bind_eq_ok.mp built
      have stays (name : Str) (child : Node) {other : Str}
          (there : other = name ∨ (fresh.findNode other).isSome = true) :
          ((fresh.add name child).findNode other).isSome = true := by
        rw [Node.findNode_add composite]
        split
        · rfl
        · next differs => exact there.resolve_left differs
      cases step with
      | add name jschema child =>
          obtain ⟨there, made, finished⟩ := except_bind_eq_ok.mp taken
          cases finished
          obtain ⟨after, ran, result⟩ := ih grounded ((isLeaf_add ..).trans composite)
            (fun other member => stays name there
              ((List.mem_cons.mp member).imp_right (isKnown other)))
            (laid.add composite name there) built
          exact ⟨after, except_bind_eq_ok.mpr
            ⟨node.add name there, except_bind_eq_ok.mpr ⟨there, made, rfl⟩, ran⟩, result⟩
      | inside name inner =>
          obtain ⟨there, made, finished⟩ := except_bind_eq_ok.mp taken
          cases finished
          -- The child was added by the same steps, so it is the same on both sides.
          have same : node.findNode name = fresh.findNode name := by
            rw [laid.children, Option.or_of_isSome (isKnown name grounded.1)]
          obtain ⟨after, ran, result⟩ := ih grounded.2 ((isLeaf_add ..).trans composite)
            (fun other member => stays name there (.inr (isKnown other member)))
            (laid.add composite name there) built
          refine ⟨after, except_bind_eq_ok.mpr
            ⟨node.add name there, except_bind_eq_ok.mpr ⟨there, ?_, rfl⟩, ran⟩, result⟩
          rw [same]
          exact made

/-- A procedure that builds a grounded plan builds it over the children that are there. -/
theorem runs_over {body : Loading PUnit} (performs : Performs body ⟨⟩ (buildAll steps))
    (grounded : Grounded [] steps) (composite : start.isLeaf = false)
    (loads : body .empty = .ok ⟨⟩ loaded) :
    ∃ after, body start = .ok ⟨⟩ after ∧ Over start loaded after := by
  have begins : Over start .empty start := ⟨composite, fun _ => rfl⟩
  obtain ⟨after, built, laid⟩ := buildAll_over grounded rfl
    (fun _ impossible => absurd impossible List.not_mem_nil) begins (performs.eq_ok_iff.mp loads)
  exact ⟨after, performs.eq_ok_iff.mpr built, laid⟩

end Over

section Order

open Node

/-- Nodes are added in name order. -/
theorem preserves_add (name : Str) {child : Node} (inner : child.Ordered) :
    Preserves Node.Ordered (modify fun node => node.add name child : Loading PUnit) :=
  preserves_modify fun _ ordered => ordered.add name inner

theorem preserves_within (cursor : Option Str) {body : Loading PUnit}
    (preserves : Preserves Node.Ordered body) : Preserves Node.Ordered (within cursor body) := by
  cases cursor with
  | none => exact preserves
  | some name =>
      refine preserves_focus preserves (fun node ordered => ?_) fun child node inner ordered =>
        ordered.add name inner
      cases found : node.findNode name with
      | none => exact ordered_empty
      | some child => exact ordered.findNode found

theorem preserves_addItems (items : List Json) : Preserves Node.Ordered (addItems items) :=
  preserves_forEach fun item => (preserves_attempt item.getString).bind fun text =>
    preserves_add text (ordered_leaf text)

mutual

/-- The loader leaves the children of every composite in name order, however it ends. -/
theorem preserves_load : ∀ (jconfig jschema : Json),
    Preserves Node.Ordered (fParseAndLoadConfig env jconfig jschema)
  | jconfig, .object members => by
      rw [fParseAndLoadConfig]
      exact (preserves_loadMembers jconfig none members).bind fun cursor =>
        preserves_loadKeywords jconfig cursor members
  | _, .null | _, .bool _ | _, .number _ | _, .string _ | _, .array _ => preserves_pure _
termination_by structural _ jschema => jschema

theorem preserves_loadMembers : ∀ (jconfig : Json) (cursor : Option Str)
    (members : List (Str × Json)), Preserves Node.Ordered (loadMembers env jconfig cursor members)
  | _, _, [] => preserves_pure _
  | jconfig, cursor, (key, jschema) :: rest => by
      rw [loadMembers]
      cases jconfig.find key with
      | none => exact preserves_loadMembers jconfig cursor rest
      | some value =>
          dsimp only
          split
          · refine (preserves_add key ordered_empty).bind fun _ => ?_
            refine (preserves_within _ (preserves_addItems value.values)).bind fun _ => ?_
            refine (preserves_within _ (preserves_load value jschema)).bind fun _ => ?_
            exact preserves_loadMembers jconfig cursor rest
          split
          · refine (preserves_attempt value.getString).bind fun text => ?_
            refine (preserves_add key (ordered_leaf text)).bind fun _ => ?_
            exact preserves_loadMembers jconfig cursor rest
          · refine (preserves_add key ordered_empty).bind fun _ => ?_
            refine (preserves_within _ (preserves_load value jschema)).bind fun _ => ?_
            exact preserves_loadMembers jconfig (some key) rest
termination_by structural _ _ members => members

theorem preserves_loadKeywords : ∀ (jconfig : Json) (cursor : Option Str)
    (members : List (Str × Json)), Preserves Node.Ordered (loadKeywords env jconfig cursor members)
  | _, _, [] => preserves_pure _
  | jconfig, cursor, (key, jschema) :: rest => by
      rw [loadKeywords]
      have others := preserves_loadKeywords jconfig cursor rest
      split
      · exact (preserves_within _ (preserves_loadPatterns jconfig jschema)).bind fun _ => others
      split
      · exact (preserves_within _ (preserves_load jconfig jschema)).bind fun _ => others
      · exact others
termination_by structural _ _ members => members

theorem preserves_loadPatterns : ∀ (jconfig jschema : Json),
    Preserves Node.Ordered (fLoadPatternProperties env jconfig jschema)
  | jconfig, .object patterns => by
      rw [fLoadPatternProperties]
      exact preserves_forEach fun entry => preserves_loadMatching entry.1 entry.2 patterns
  | _, .null | _, .bool _ | _, .number _ | _, .string _ | _, .array _ => preserves_pure _
termination_by structural _ jschema => jschema

theorem preserves_loadMatching : ∀ (key : Str) (value : Json) (patterns : List (Str × Json)),
    Preserves Node.Ordered (loadMatching env key value patterns)
  | _, _, [] => preserves_pure _
  | key, value, (pattern, jschema) :: rest => by
      rw [loadMatching]
      have others := preserves_loadMatching key value rest
      refine (preserves_attempt (env.regex_match pattern key)).bind fun matched => ?_
      dsimp only
      split
      · refine (preserves_add key ordered_empty).bind fun _ => ?_
        split
        · exact (preserves_within _ (preserves_load value jschema)).bind fun _ => others
        · exact others
      · exact others
termination_by structural _ _ patterns => patterns

end

/-- The tree of a document has its children in name order. -/
theorem ordered_of_buildTree {jconfig : Json} {root : Node}
    (built : buildTree env jconfig = .ok root) : root.Ordered := by
  have returned {body : Loading PUnit} (preserves : Preserves Node.Ordered body) {loaded : Node}
      (ran : body .empty = .ok ⟨⟩ loaded) : loaded.Ordered := by
    have ordered := preserves .empty ordered_empty
    rw [ran] at ordered
    exact ordered
  unfold buildTree at built
  split at built
  · split at built
    · next loads =>
        cases built
        exact returned (preserves_load _ _) loads
    · cases built
  · split at built
    · next loads =>
        cases built
        exact returned (preserves_loadPatterns _ _) loads
    · cases built
  · cases built

end Order

end FlexConfig
