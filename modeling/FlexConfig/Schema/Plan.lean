import FlexConfig.Foundation.Effect
import FlexConfig.Schema.Loader

/-! # What the loader sets out to do

The nodes the loader adds depend on the schema and the document, and not on the tree it has
built so far. They are planned beforehand, each with the schema object under which it is
created, and building them in order is what the loader does.
-/

namespace FlexConfig

open Procedure Schema

/-- A step of a plan: add a node that is created under a schema object, or go inside a
child. -/
inductive PlanStep where
  | add (name : Str) (jschema : Json) (child : Attempt Node)
  | inside (name : Str) (steps : List PlanStep)

namespace PlanStep

mutual

/-- Take one step. -/
def build : PlanStep → Node → Attempt Node
  | .add name _ child, node => do
    let added ← child
    return node.add name added
  | .inside name steps, node => do
    let child ← buildAll steps ((node.findNode name).getD .empty)
    return node.add name child

/-- Take the steps of a plan in order. -/
def buildAll : List PlanStep → Node → Attempt Node
  | [], node => .ok node
  | step :: rest, node => do
    let next ← build step node
    buildAll rest next

end

theorem buildAll_append (first second : List PlanStep) (node : Node) :
    buildAll (first ++ second) node = buildAll first node >>= buildAll second := by
  induction first generalizing node with
  | nil => rfl
  | cons step rest ih =>
      rw [List.cons_append, buildAll, buildAll]
      cases build step node with
      | error reason => rfl
      | ok next => exact ih next

mutual

/-- The nodes a step adds, each with its location and the schema object under which it is
created. -/
def additions : PlanStep → List (Location × Json)
  | .add name jschema _ => [([name], jschema)]
  | .inside name steps => (additionsOfAll steps).map fun entry => (name :: entry.1, entry.2)

def additionsOfAll : List PlanStep → List (Location × Json)
  | [] => []
  | step :: rest => additions step ++ additionsOfAll rest

end

/-- The schema object under which the node at a location is created: it is there since the last
step that has added it. -/
def createdUnder (steps : List PlanStep) (location : Location) : Option Json :=
  ((additionsOfAll steps).reverse.find? fun entry => entry.1 = location).map Prod.snd

end PlanStep

/-- Steps taken where the cursor is. -/
def beneath (cursor : Option Str) (steps : List PlanStep) : List PlanStep :=
  match cursor with
  | none => steps
  | some name => [.inside name steps]

/-- The cursor after the first loop: the composite added last. -/
def cursorAfter (jconfig : Json) (cursor : Option Str) : (members : List (Str × Json)) → Option Str
  | [] => cursor
  | (key, jschema) :: rest =>
    if (jconfig.find key).isSome && !jschema.hasType Schema.TypeName.ARRAY && !isLeafSchema jschema
    then cursorAfter jconfig (some key) rest
    else cursorAfter jconfig cursor rest

/-- The leaf of a value. -/
def leafOf (value : Json) : Attempt Node := value.getString.map Node.leaf

/-- The leaves of the items of an array, created under its schema object. -/
def itemsPlan (jschema : Json) (items : List Json) : List PlanStep :=
  items.map fun item =>
    match item.getString with
    | .ok text => .add text jschema (.ok (.leaf text))
    | .error reason => .add [] jschema (.error reason)

variable (env : Env)

mutual

/-- The plan of `fParseAndLoadConfig`. -/
def plan (jconfig : Json) : (jschema : Json) → List PlanStep
  | .object members =>
    membersPlan jconfig none members ++
      keywordsPlan jconfig (cursorAfter jconfig none members) members
  | _ => []
termination_by structural jschema => jschema

/-- The plan of the first loop. -/
def membersPlan (jconfig : Json) (cursor : Option Str) :
    (members : List (Str × Json)) → List PlanStep
  | [] => []
  | (key, jschema) :: rest =>
    match jconfig.find key with
    | none => membersPlan jconfig cursor rest
    | some value =>
      if jschema.hasType Schema.TypeName.ARRAY then
        .add key jschema (.ok .empty) :: .inside key (itemsPlan jschema value.values) ::
          (beneath cursor (plan value jschema) ++ membersPlan jconfig cursor rest)
      else if isLeafSchema jschema then
        .add key jschema (leafOf value) :: membersPlan jconfig cursor rest
      else
        .add key jschema (.ok .empty) :: .inside key (plan value jschema) ::
          membersPlan jconfig (some key) rest
termination_by structural members => members

/-- The plan of the second loop. -/
def keywordsPlan (jconfig : Json) (cursor : Option Str) :
    (members : List (Str × Json)) → List PlanStep
  | [] => []
  | (key, jschema) :: rest =>
    (if key = Keyword.PATTERN_PROPERTIES then beneath cursor (patternsPlan jconfig jschema)
      else if key = Keyword.PROPERTIES then beneath cursor (plan jconfig jschema)
      else []) ++ keywordsPlan jconfig cursor rest
termination_by structural members => members

/-- The plan of `fLoadPatternProperties`. -/
def patternsPlan (jconfig : Json) : (jschema : Json) → List PlanStep
  | .object patterns => jconfig.items.flatMap fun entry => matchingPlan entry.1 entry.2 patterns
  | _ => []
termination_by structural jschema => jschema

/-- The plan for one key of the document. -/
def matchingPlan (key : Str) (value : Json) : (patterns : List (Str × Json)) → List PlanStep
  | [] => []
  | (pattern, jschema) :: rest =>
    (match env.regex_match pattern key with
      | .error reason => [.add key jschema (.error reason)]
      | .ok false => []
      | .ok true =>
        .add key jschema (.ok .empty) ::
          if hasSubnodes jschema then [.inside key (plan value jschema)] else []) ++
      matchingPlan key value rest
termination_by structural patterns => patterns

end

/-- The plan of a whole document. -/
def rootPlan (jconfig : Json) : List PlanStep :=
  match env.jschema.find Keyword.PROPERTIES, env.jschema.find Keyword.PATTERN_PROPERTIES with
  | some properties, _ => plan env jconfig properties
  | none, some patterns => patternsPlan env jconfig patterns
  | none, none => []

section Performs

open PlanStep

variable {env}

theorem performs_add (name : Str) (jschema : Json) (child : Node) :
    Performs (modify fun node => node.add name child : Loading PUnit) ⟨⟩
      (buildAll [.add name jschema (.ok child)]) := fun _ => rfl

theorem performs_nothing : Performs (pure ⟨⟩ : Loading PUnit) ⟨⟩ (buildAll []) := fun _ => rfl

theorem performs_inside (name : Str) {body : Loading PUnit} {steps : List PlanStep}
    (performs : Performs body ⟨⟩ (buildAll steps)) :
    Performs (within (some name) body) ⟨⟩ (buildAll [.inside name steps]) := by
  refine (performs_focus performs).congr fun node => ?_
  rw [buildAll, build]
  cases buildAll steps ((node.findNode name).getD .empty) with
  | ok child => rfl
  | error reason => rfl

theorem performs_beneath (cursor : Option Str) {body : Loading PUnit} {steps : List PlanStep}
    (performs : Performs body ⟨⟩ (buildAll steps)) :
    Performs (within cursor body) ⟨⟩ (buildAll (beneath cursor steps)) := by
  cases cursor with
  | none => exact performs
  | some name => exact performs_inside name performs

/-- One part of a plan after the other. -/
theorem performs_append {α : Type} {first : Loading PUnit} {second : Loading α} {value : α}
    {steps rest : List PlanStep} (performs : Performs first ⟨⟩ (buildAll steps))
    (performsRest : Performs second value (buildAll rest)) :
    Performs (first >>= fun _ => second) value (buildAll (steps ++ rest)) :=
  (performs.bind performsRest).congr fun node => buildAll_append steps rest node

theorem performs_addItem (jschema item : Json) :
    Performs (attempt item.getString >>= fun text => modify fun node => node.add text (.leaf text))
      ⟨⟩ (buildAll (itemsPlan jschema [item])) := by
  unfold itemsPlan
  cases read : item.getString with
  | ok text =>
      intro node
      rw [bind_of_ok (attempt_eq_ok.mpr ⟨rfl, rfl⟩), List.map_singleton, read]
      rfl
  | error reason =>
      intro node
      rw [bind_of_error (attempt_eq_error.mpr ⟨rfl, rfl⟩), List.map_singleton, read]
      exact ⟨node, rfl⟩

theorem performs_addItems (jschema : Json) (items : List Json) :
    Performs (addItems items) ⟨⟩ (buildAll (itemsPlan jschema items)) := by
  induction items with
  | nil => exact performs_nothing
  | cons item rest ih => exact performs_append (performs_addItem jschema item) ih

mutual

/-- The loader builds its plan. -/
theorem performs_plan : ∀ (jconfig jschema : Json),
    Performs (fParseAndLoadConfig env jconfig jschema) ⟨⟩ (buildAll (plan env jconfig jschema))
  | jconfig, .object members => by
      rw [fParseAndLoadConfig, plan]
      refine ((performs_membersPlan jconfig none members).bind
        (performs_keywordsPlan jconfig _ members)).congr fun node => ?_
      exact buildAll_append ..
  | _, .null | _, .bool _ | _, .number _ | _, .string _ | _, .array _ => performs_pure _
termination_by structural _ jschema => jschema

theorem performs_membersPlan : ∀ (jconfig : Json) (cursor : Option Str)
    (members : List (Str × Json)),
    Performs (loadMembers env jconfig cursor members) (cursorAfter jconfig cursor members)
      (buildAll (membersPlan env jconfig cursor members))
  | _, cursor, [] => performs_pure cursor
  | jconfig, cursor, (key, jschema) :: rest => by
      rw [loadMembers, membersPlan, cursorAfter]
      cases jconfig.find key with
      | none => exact performs_membersPlan jconfig cursor rest
      | some value =>
          dsimp only
          by_cases array : jschema.hasType Schema.TypeName.ARRAY = true
          · rw [if_pos array, if_pos array, if_neg (by simp [array])]
            have others := performs_append (performs_beneath cursor (performs_plan value jschema))
              (performs_membersPlan jconfig cursor rest)
            have items := performs_append
              (performs_inside key (performs_addItems jschema value.values)) others
            exact performs_append (performs_add key jschema .empty) items
          · rw [if_neg array, if_neg array]
            by_cases leaf : isLeafSchema jschema = true
            · rw [if_pos leaf, if_pos leaf, if_neg (by simp [leaf])]
              have others := performs_membersPlan jconfig cursor rest
              unfold leafOf
              cases value.getString with
              | ok text => exact performs_append (performs_add key jschema (.leaf text)) others
              | error reason =>
                  intro node
                  exact ⟨node, bind_of_error (attempt_eq_error.mpr ⟨rfl, rfl⟩)⟩
            · rw [if_neg leaf, if_neg leaf, if_pos (by simp [array, leaf])]
              have others := performs_append (performs_inside key (performs_plan value jschema))
                (performs_membersPlan jconfig (some key) rest)
              exact performs_append (performs_add key jschema .empty) others
termination_by structural _ _ members => members

theorem performs_keywordsPlan : ∀ (jconfig : Json) (cursor : Option Str)
    (members : List (Str × Json)),
    Performs (loadKeywords env jconfig cursor members) ⟨⟩
      (buildAll (keywordsPlan env jconfig cursor members))
  | _, _, [] => performs_pure _
  | jconfig, cursor, (key, jschema) :: rest => by
      rw [loadKeywords, keywordsPlan]
      have others := performs_keywordsPlan jconfig cursor rest
      by_cases patterns : key = Keyword.PATTERN_PROPERTIES
      · rw [if_pos patterns, if_pos patterns]
        exact performs_append (performs_beneath cursor (performs_patternsPlan jconfig jschema)) others
      · rw [if_neg patterns, if_neg patterns]
        by_cases properties : key = Keyword.PROPERTIES
        · rw [if_pos properties, if_pos properties]
          exact performs_append (performs_beneath cursor (performs_plan jconfig jschema)) others
        · rw [if_neg properties, if_neg properties]
          exact performs_append performs_nothing others
termination_by structural _ _ members => members

theorem performs_patternsPlan : ∀ (jconfig jschema : Json),
    Performs (fLoadPatternProperties env jconfig jschema) ⟨⟩
      (buildAll (patternsPlan env jconfig jschema))
  | jconfig, .object patterns => by
      rw [fLoadPatternProperties, patternsPlan]
      induction jconfig.items with
      | nil => exact performs_nothing
      | cons entry others ih =>
          exact performs_append (performs_matchingPlan entry.1 entry.2 patterns) ih
  | _, .null | _, .bool _ | _, .number _ | _, .string _ | _, .array _ => performs_pure _
termination_by structural _ jschema => jschema

theorem performs_matchingPlan : ∀ (key : Str) (value : Json) (patterns : List (Str × Json)),
    Performs (loadMatching env key value patterns) ⟨⟩
      (buildAll (matchingPlan env key value patterns))
  | _, _, [] => performs_pure _
  | key, value, (pattern, jschema) :: rest => by
      rw [loadMatching, matchingPlan]
      have others := performs_matchingPlan key value rest
      cases env.regex_match pattern key with
      | error reason =>
          intro node
          rw [bind_of_error (attempt_eq_error.mpr ⟨rfl, rfl⟩)]
          exact ⟨node, rfl⟩
      | ok matched =>
          rw [attempt_ok_bind]
          cases matched with
          | false => exact performs_append performs_nothing others
          | true =>
              by_cases subnodes : hasSubnodes jschema = true
              · rw [if_pos rfl, if_pos subnodes, if_pos subnodes]
                dsimp only
                have inner := performs_append (performs_inside key (performs_plan value jschema))
                  others
                have whole := performs_append (performs_add key jschema .empty) inner
                exact whole
              · rw [if_pos rfl, if_neg subnodes, if_neg subnodes]
                dsimp only
                exact performs_append (performs_add key jschema .empty) others
termination_by structural _ _ patterns => patterns

end

/-- The tree of a document is what its plan builds. -/
theorem buildTree_eq_ok_iff {jconfig properties : Json}
    (found : env.jschema.find Keyword.PROPERTIES = some properties) {root : Node} :
    buildTree env jconfig = .ok root ↔
      buildAll (plan env jconfig properties) .empty = .ok root := by
  rw [← (performs_plan jconfig properties).eq_ok_iff]
  unfold buildTree
  rw [found]
  dsimp only
  cases fParseAndLoadConfig env jconfig properties .empty with
  | ok _ last => simp
  | error reason last => simp

end Performs

end FlexConfig
