import FlexConfig.Schema.Loading

/-! # Documents the tree is faithful to

The tree of a document has a node for every member of every object of the document and for
nothing else where the loader can read what it comes to, every name is governed by a rule,
and nothing has members below a pattern whose schema object has no nodes below it.
-/

namespace FlexConfig

open Procedure Schema PlanStep
open Relation (ReflTransGen)

/-- A value with a worth of its own, other than its members. -/
def Json.isScalar : Json → Bool
  | .bool _ | .number _ | .string _ => true
  | .null | .array _ | .object _ => false

/-- A leaf carries its string; a composite carries a value without a worth of its own. -/
def Carries : Node → Json → Prop
  | .leaf text, value => value = .string text
  | .composite _, value => value.isScalar = false

/-- A node has what a value has: nodes at the paths of the members of objects and nowhere else,
each of which carries the value there. -/
structure Mirrors (node : Node) (value : Json) : Prop where
  nodes : ∀ location, location ≠ [] →
    ((node.get location).isSome ↔ (value.member location).isSome)
  values : ∀ location, location ≠ [] → ∀ child inner,
    node.get location = some child → value.member location = some inner → Carries child inner

/-- The loader returns on the properties of the root, and its tree is that of the document. -/
def Faithful (env : Env) (jconfig properties : Json) : Prop :=
  ∃ root, fParseAndLoadConfig env jconfig properties .empty = .ok ⟨⟩ root ∧ Mirrors root jconfig

/-- The child of a rule is a composite, where there are no arrays. -/
def Rule.IsComposite : Rule → Prop
  | .keyword _ => False
  | .property jschema => (Rule.property jschema).Descends
  | .pattern _ _ => True

namespace Level

/-- A child that stays has a plan for what is below it. -/
inductive Survives (env : Env) (level : Level) : Visit → Prop where
  | child {name : Str} {value : Json} {rule : Rule}
      (found : level.jconfig.find name = some value)
      (governs : level.governing env name = some rule)
      (descends : rule.Descends) : Survives env level ⟨rule.jschema, value⟩

/-- The rules of a level give its document the children it has: every name has a rule, no value
with a worth of its own has a composite, a value has no members below a pattern without nodes
below it, and what a pattern matches is a member. -/
structure Fits (env : Env) (level : Level) : Prop where
  governed : ∀ name, (level.jconfig.find name).isSome → (level.governing env name).isSome
  carried : ∀ name value rule, level.jconfig.find name = some value →
    level.governing env name = some rule → rule.IsComposite → value.isScalar = false
  bare : ∀ name value pattern jschema, level.jconfig.find name = some value →
    level.governing env name = some (.pattern pattern jschema) → hasSubnodes jschema = false →
      ∀ inner, value.find inner = none
  matched : ∀ item ∈ level.jconfig.items, ∀ pattern ∈ level.patterns,
    env.regexMatch pattern.1 item.1 = some true → (level.jconfig.find item.1).isSome

end Level

/-- A child that stays, from the composite it is in. -/
def Stays (env : Env) (outer inner : Visit) : Prop := outer.level.Survives env inner

/-- What the loader comes to can be read, and what stays fits. -/
structure Loadable (env : Env) (jconfig : Json) : Prop where
  readable : (Level.root env jconfig).Readable env
  visited : ∀ visit, Visited env jconfig visit → visit.level.Readable env
  fits : (Level.root env jconfig).Fits env
  staying : ∀ first, (Level.root env jconfig).Survives env first →
    ∀ visit, ReflTransGen (Stays env) first visit → visit.level.Fits env

mutual

/-- No object inside a schema has the type of arrays. -/
def Arrayless : (jschema : Json) → Prop
  | .object members =>
    (Json.object members).hasType Schema.TypeName.ARRAY = false ∧ ArraylessMembers members
  | _ => True

def ArraylessMembers : List (Str × Json) → Prop
  | [] => True
  | (_, jschema) :: rest => Arrayless jschema ∧ ArraylessMembers rest

end

/-- The type keyword of JSON Schema. -/
def Json.isOfType (value : Json) (name : Str) : Bool :=
  match value with
  | .null => name = "null".toList
  | .bool _ => name = "boolean".toList
  | .number amount => name = "number".toList || name = "integer".toList && amount.isInt
  | .string _ => name = "string".toList
  | .array _ => name = "array".toList
  | .object _ => name = "object".toList

/-- What JSON Schema asks of a value: it is of the type, and every member conforms to the schema
object of the property of its name, and to that of every pattern that is found in its name. -/
inductive Conforms (search : (pattern text : Str) → Bool) : (value jschema : Json) → Prop where
  | intro {value jschema : Json}
      (type : ∀ name, jschema.find Keyword.TYPE = some (.string name) → value.isOfType name = true)
      (properties : ∀ entry ∈ jschema.table Keyword.PROPERTIES,
        ∀ inner, value.find entry.1 = some inner → Conforms search inner entry.2)
      (patterns : ∀ entry ∈ jschema.table Keyword.PATTERN_PROPERTIES,
        ∀ name inner, value.find name = some inner → search entry.1 name = true →
          Conforms search inner entry.2) : Conforms search value jschema

variable {env : Env}

section Mirror

theorem mirrors_iff {node : Node} {value : Json} :
    Mirrors node value ↔ (∀ name, (node.findNode name).isSome ↔ (value.find name).isSome) ∧
      ∀ name child inner, node.findNode name = some child → value.find name = some inner →
        Carries child inner ∧ Mirrors child inner := by
  constructor
  · intro mirrors
    refine ⟨fun name => ?_, fun name child inner hasChild hasInner => ?_⟩
    · have here := mirrors.nodes [name] (List.cons_ne_nil _ _)
      simpa [Node.get, Json.member, Option.isSome_bind] using here
    · have child_get : ∀ rest, node.get (name :: rest) = child.get rest := fun rest => by
        rw [Node.get, hasChild, Option.bind_some]
      have inner_member : ∀ rest, value.member (name :: rest) = inner.member rest := fun rest => by
        rw [Json.member, hasInner, Option.bind_some]
      have below : ∀ rest, name :: rest ≠ [] := fun rest => List.cons_ne_nil _ _
      refine ⟨?_, fun location _ => ?_, fun location _ next found isChild isInner => ?_⟩
      · exact mirrors.values [name] (below []) child inner (child_get []) (inner_member [])
      · rw [← child_get, ← inner_member]
        exact mirrors.nodes (name :: location) (below location)
      · rw [← child_get] at isChild
        rw [← inner_member] at isInner
        exact mirrors.values (name :: location) (below location) next found isChild isInner
  · rintro ⟨names, below⟩
    constructor
    · intro location nonempty
      cases location with
      | nil => exact absurd rfl nonempty
      | cons name rest =>
          rw [Node.get, Json.member]
          cases hasChild : node.findNode name with
          | none =>
              have noInner : value.find name = none := by
                simpa [hasChild] using names name
              rw [noInner]
              rfl
          | some child =>
              obtain ⟨inner, hasInner⟩ := Option.isSome_iff_exists.mp
                ((names name).mp (Option.isSome_iff_exists.mpr ⟨child, hasChild⟩))
              rw [hasInner, Option.bind_some, Option.bind_some]
              cases rest with
              | nil => exact iff_of_true rfl rfl
              | cons next rest =>
                  exact (below name child inner hasChild hasInner).2.nodes _ (List.cons_ne_nil _ _)
    · intro location nonempty next found isChild isInner
      cases location with
      | nil => exact absurd rfl nonempty
      | cons name rest =>
          obtain ⟨child, hasChild, isChild⟩ := Option.bind_eq_some_iff.mp isChild
          obtain ⟨inner, hasInner, isInner⟩ := Option.bind_eq_some_iff.mp isInner
          obtain ⟨carries, mirrors⟩ := below name child inner hasChild hasInner
          cases rest with
          | nil =>
              cases isChild
              cases isInner
              exact carries
          | cons head rest =>
              exact mirrors.values _ (List.cons_ne_nil _ _) next found isChild isInner

theorem mirrors_leaf (text : Str) : Mirrors (.leaf text) (.string text) := by
  refine mirrors_iff.mpr ⟨fun name => iff_of_false nofun nofun, ?_⟩
  exact fun name child inner impossible => by cases impossible

theorem mirrors_empty_iff {value : Json} :
    Mirrors .empty value ↔ ∀ name, value.find name = none := by
  have noChild : ∀ name, Node.empty.findNode name = none := fun _ => rfl
  rw [mirrors_iff]
  constructor
  · rintro ⟨names, _⟩ name
    simpa [noChild] using names name
  · refine fun absent => ⟨fun name => ?_, fun name child inner hasChild => ?_⟩
    · simp [noChild, absent]
    · cases hasChild

/-- A composite carries a value without a worth of its own. -/
theorem carries_iff {node : Node} {value : Json} (composite : node.isLeaf = false) :
    Carries node value ↔ value.isScalar = false := by
  cases node with
  | leaf text => cases composite
  | composite children => exact Iff.rfl

end Mirror

section Levels

variable {level : Level} {name : Str} {value : Json} {rule : Rule}

theorem Level.mem_of_governing_property {jschema : Json}
    (governs : level.governing env name = some (.property jschema)) :
    (name, jschema) ∈ level.properties := by
  unfold Level.governing at governs
  split at governs
  · next isProperty =>
      cases governs
      exact Keyed.mem_of_find isProperty
  · simp [Option.or_eq_some_iff] at governs

theorem Level.mem_of_governing_pattern {pattern : Str} {jschema : Json}
    (governs : level.governing env name = some (.pattern pattern jschema)) :
    (pattern, jschema) ∈ level.patterns ∧ env.regexMatch pattern name = some true := by
  unfold Level.governing at governs
  split at governs
  · cases governs
  · simp only [Option.or_eq_some_iff, Option.map_eq_some_iff] at governs
    obtain ⟨last, isLast, same⟩ | ⟨_, _, _, impossible⟩ := governs
    · cases same
      have matched := List.find?_some isLast
      exact ⟨List.mem_reverse.mp (List.mem_of_find?_eq_some isLast), of_decide_eq_true matched⟩
    · cases impossible

theorem mem_items_of_find {json : Json} (found : json.find name = some value) :
    (name, value) ∈ json.items := by
  cases json with
  | object members => exact Keyed.mem_of_find found
  | null | bool | number | string | array => cases found

/-- What stays has been entered. -/
theorem Level.Survives.enters {visit : Visit} (survives : level.Survives env visit) :
    level.Enters env visit := by
  obtain ⟨found, governs, descends⟩ := survives
  next rule =>
    cases rule with
    | keyword => exact descends.elim
    | property jschema =>
        exact .property (Level.mem_of_governing_property governs) found descends
    | pattern pattern jschema =>
        obtain ⟨isPattern, matched⟩ := Level.mem_of_governing_pattern governs
        exact .pattern isPattern (mem_items_of_find found) matched descends

theorem Rule.tree_of_descends (descends : rule.Descends) :
    (rule.entry env name value).tree = buildAll (plan env value rule.jschema) .empty := by
  obtain ⟨first, inner⟩ := @Rule.entry_inner env name value rule descends
  unfold Entry.tree
  rw [first, inner]
  rfl

theorem mirrors_of_leafOf {tree : Node} (built : leafOf value = .ok tree) :
    Carries tree value ∧ Mirrors tree value := by
  obtain ⟨text, rfl⟩ := leafOf_eq_ok_iff.mp ⟨tree, built⟩
  cases built
  exact ⟨rfl, mirrors_leaf text⟩

/-- Building a plan leaves a composite a composite. -/
theorem isLeaf_of_build : ∀ {step : PlanStep} {node next : Node}, step.build node = .ok next →
    node.isLeaf = false → next.isLeaf = false
  | .add name _ child, .composite children, next, ran, _ => by
      obtain ⟨added, _, finished⟩ := except_bind_eq_ok.mp ran
      cases finished
      rfl
  | .inside name steps, .composite children, next, ran, _ => by
      obtain ⟨child, _, finished⟩ := except_bind_eq_ok.mp ran
      cases finished
      rfl

theorem isLeaf_of_buildAll {steps : List PlanStep} {node next : Node}
    (ran : buildAll steps node = .ok next) (composite : node.isLeaf = false) :
    next.isLeaf = false := by
  induction steps generalizing node with
  | nil =>
      cases ran
      exact composite
  | cons step rest ih =>
      obtain ⟨between, first, ran⟩ := except_bind_eq_ok.mp ran
      exact ih ran (isLeaf_of_build first composite)

/-- The child of a rule carries and mirrors its value: a leaf does, and a composite where the
value has no worth of its own, and no members unless there is a plan for them. -/
theorem mirrors_child_iff
    (arrayless : ∀ jschema, rule = .property jschema → jschema.hasType Schema.TypeName.ARRAY = false)
    {tree : Node} (built : (rule.entry env name value).tree = .ok tree) :
    Carries tree value ∧ Mirrors tree value ↔
      (rule.IsComposite → value.isScalar = false) ∧
      (∀ pattern jschema, rule = .pattern pattern jschema → hasSubnodes jschema = false →
        ∀ inner, value.find inner = none) ∧
      (rule.Descends → ∀ child, buildAll (plan env value rule.jschema) .empty = .ok child →
        Mirrors child value) := by
  by_cases descends : rule.Descends
  · have composite : rule.IsComposite := by
      cases rule with
      | keyword => exact descends.elim
      | property => exact descends
      | pattern => exact trivial
    rw [Rule.tree_of_descends descends] at built
    rw [carries_iff (isLeaf_of_buildAll built rfl), forall_prop_of_true composite]
    refine and_congr_right fun _ =>
      ⟨fun mirrors => ⟨?_, fun _ child ran => ?_⟩, fun both => both.2 descends tree built⟩
    · rintro pattern jschema rfl bare
      cases bare.symm.trans descends
    · cases built.symm.trans ran
      exact mirrors
  · rw [and_iff_left fun impossible => absurd impossible descends]
    cases rule with
    | keyword jschema =>
        have leaf : leafOf value = .ok tree := (tree_keywordEntry name jschema value).symm.trans built
        exact iff_of_true (mirrors_of_leafOf leaf) ⟨nofun, nofun⟩
    | property jschema =>
        have notArray := arrayless jschema rfl
        have isLeaf : isLeafSchema jschema = true := by
          by_contra notLeaf
          exact descends ⟨notArray, Bool.eq_false_iff.mpr notLeaf⟩
        have entry : Rule.entry env name value (.property jschema) = keywordEntry name jschema value := by
          change propertyEntry env name jschema value = _
          unfold propertyEntry
          rw [if_neg (Bool.eq_false_iff.mp notArray), if_pos isLeaf]
          rfl
        rw [entry] at built
        have leaf : leafOf value = .ok tree := (tree_keywordEntry name jschema value).symm.trans built
        exact iff_of_true (mirrors_of_leafOf leaf) ⟨fun impossible => absurd impossible descends, nofun⟩
    | pattern pattern jschema =>
        have bare : hasSubnodes jschema = false := Bool.eq_false_iff.mpr descends
        have inner : (Rule.entry env name value (.pattern pattern jschema)).inner = none :=
          if_neg descends
        have empty : tree = .empty := by
          rw [Entry.tree, inner] at built
          cases built
          rfl
        have composite : (Rule.pattern pattern jschema).IsComposite := trivial
        rw [empty, mirrors_empty_iff, carries_iff rfl, forall_prop_of_true composite]
        refine and_congr_right fun _ => ⟨?_, fun all => all pattern jschema rfl bare⟩
        rintro absent _ _ same _
        exact absent

section Build

variable {node : Node}

/-- The child at the name of a governed member is what its rule builds. -/
theorem Level.built_of_governing (sorted : level.Sorted) (readable : level.Readable env)
    (built : Built (level.entries env) [] node) (found : level.jconfig.find name = some value)
    (governs : level.governing env name = some rule) :
    ∃ tree, (rule.entry env name value).tree = .ok tree ∧ node.findNode name = some tree := by
  have last := Level.lastOf_entries sorted readable.regexes found
  rw [governs] at last
  obtain ⟨tree, builds⟩ := built.trees _ (Entry.mem_of_lastOf last).1
  refine ⟨tree, builds, ?_⟩
  rw [built.finds, last]
  exact congrArg Except.toOption builds

/-- There is a child of the name of an item that matches a pattern. -/
theorem Level.findNode_of_matched (readable : level.Readable env)
    (built : Built (level.entries env) [] node) {item : Str × Json} (isItem : item ∈ level.jconfig.items)
    {pattern : Str × Json} (isPattern : pattern ∈ level.patterns)
    (matched : env.regexMatch pattern.1 item.1 = some true)
    (noMember : level.jconfig.find item.1 = none) : (node.findNode item.1).isSome := by
  rw [built.finds]
  cases last : Entry.lastOf item.1 (level.entries env) with
  | some entry =>
      obtain ⟨tree, builds⟩ := built.trees entry (Entry.mem_of_lastOf last).1
      dsimp only
      rw [builds]
      rfl
  | none =>
      have unmatched := (Level.lastOf_entries_eq_none_iff readable.regexes noMember).mp last
      exact (unmatched item isItem rfl pattern isPattern matched).elim

/-- A level that fits has a child of a name exactly where the document has a member. -/
theorem Level.findNode_iff_of_fits (sorted : level.Sorted) (readable : level.Readable env)
    (built : Built (level.entries env) [] node) (fits : level.Fits env) (name : Str) :
    (node.findNode name).isSome ↔ (level.jconfig.find name).isSome := by
  cases found : level.jconfig.find name with
  | some value =>
      obtain ⟨rule, governs⟩ := Option.isSome_iff_exists.mp
        (fits.governed name (Option.isSome_iff_exists.mpr ⟨value, found⟩))
      obtain ⟨tree, _, isChild⟩ := Level.built_of_governing sorted readable built found governs
      rw [isChild]
      exact iff_of_true rfl rfl
  | none =>
      have last : Entry.lastOf name (level.entries env) = none := by
        refine (Level.lastOf_entries_eq_none_iff readable.regexes found).mpr ?_
        rintro item isItem rfl pattern isPattern matched
        have present := fits.matched item isItem pattern isPattern matched
        rw [found] at present
        cases present
      rw [built.finds, last]
      rfl

/-- The level of a composite that mirrors the document fits. -/
theorem Level.fits_of_mirrors (readable : level.Readable env) (sorted : level.Sorted)
    (built : Built (level.entries env) [] node)
    (names : ∀ name, (node.findNode name).isSome ↔ (level.jconfig.find name).isSome)
    (below : ∀ {name value rule}, level.jconfig.find name = some value →
      level.governing env name = some rule → (rule.IsComposite → value.isScalar = false) ∧
        ∀ pattern jschema, rule = .pattern pattern jschema → hasSubnodes jschema = false →
          ∀ inner, value.find inner = none) : level.Fits env := by
  refine ⟨fun name present => ?_, ?_, ?_, ?_⟩
  · obtain ⟨value, found⟩ := Option.isSome_iff_exists.mp present
    have child := (names name).mpr present
    rw [built.finds, Level.lastOf_entries sorted readable.regexes found] at child
    cases governs : level.governing env name with
    | some rule => rfl
    | none =>
        rw [governs] at child
        cases child
  · intro name value rule found governs
    exact (below found governs).1
  · intro name value pattern jschema found governs
    exact (below found governs).2 pattern jschema rfl
  · intro item isItem pattern isPattern matched
    by_contra absent
    have noMember := Option.not_isSome_iff_eq_none.mp absent
    exact absent ((names item.1).mp
      (Level.findNode_of_matched readable built isItem isPattern matched noMember))

/-- The composite of a level mirrors the document when the level fits and what stays below it
mirrors its own. -/
theorem mirrors_level_iff (sorted : level.Sorted) (readable : level.Readable env)
    (arrayless : ∀ entry ∈ level.properties, entry.2.hasType Schema.TypeName.ARRAY = false)
    (ran : buildAll ((level.entries env).flatMap Entry.steps) (.composite []) = .ok node) :
    Mirrors node level.jconfig ↔ level.Fits env ∧
      ∀ visit, level.Survives env visit →
        ∀ child, buildAll (plan env visit.jconfig visit.jschema) .empty = .ok child →
          Mirrors child visit.jconfig := by
  have built := built_of_buildAll ran
  have propertyArrayless : ∀ {name rule}, level.governing env name = some rule →
      ∀ jschema, rule = .property jschema → jschema.hasType Schema.TypeName.ARRAY = false := by
    rintro name _ governs jschema rfl
    exact arrayless _ (Level.mem_of_governing_property governs)
  rw [mirrors_iff]
  constructor
  · rintro ⟨names, mirrors⟩
    have child : ∀ {name value rule}, level.jconfig.find name = some value →
        level.governing env name = some rule → _ := fun {name value _} found governs =>
      have ⟨tree, builds, isChild⟩ := Level.built_of_governing sorted readable built found governs
      (mirrors_child_iff (propertyArrayless governs) builds).mp
        (mirrors name tree value isChild found)
    refine ⟨Level.fits_of_mirrors readable sorted built names fun found governs => ?_, ?_⟩
    · obtain ⟨carried, bare, _⟩ := child found governs
      exact ⟨carried, bare⟩
    · rintro _ ⟨found, governs, descends⟩
      exact (child found governs).2.2 descends
  · rintro ⟨fits, staying⟩
    refine ⟨Level.findNode_iff_of_fits sorted readable built fits,
      fun name child value isChild found => ?_⟩
    obtain ⟨rule, governs⟩ := Option.isSome_iff_exists.mp
      (fits.governed name (Option.isSome_iff_exists.mpr ⟨value, found⟩))
    obtain ⟨tree, builds, hasTree⟩ := Level.built_of_governing sorted readable built found governs
    cases isChild.symm.trans hasTree
    refine (mirrors_child_iff (propertyArrayless governs) builds).mpr
      ⟨fits.carried name value rule found governs, ?_, fun descends => ?_⟩
    · rintro pattern jschema rfl
      exact fits.bare name value pattern jschema found governs
    · exact staying _ (.child found governs descends)

end Build

end Levels

section Whole

theorem arrayless_of_mem : ∀ {members : List (Str × Json)}, ArraylessMembers members →
    ∀ entry ∈ members, Arrayless entry.2
  | [], _, _, impossible => by cases impossible
  | (_, _) :: _, arrayless, _, member => by
      rcases List.mem_cons.mp member with rfl | later
      · exact arrayless.1
      · exact arrayless_of_mem arrayless.2 _ later

theorem Arrayless.of_find {jschema inner : Json} {name : Str} (arrayless : Arrayless jschema)
    (found : jschema.find name = some inner) : Arrayless inner := by
  cases jschema with
  | object members => exact arrayless_of_mem arrayless.2 _ (Keyed.mem_of_find found)
  | null | bool | number | string | array => cases found

theorem Arrayless.hasType {jschema : Json} (arrayless : Arrayless jschema) :
    jschema.hasType Schema.TypeName.ARRAY = false := by
  cases jschema with
  | object members => exact arrayless.1
  | null | bool | number | string | array => rfl

theorem Arrayless.entry {jschema : Json} {keyword : Str} (arrayless : Arrayless jschema) :
    ∀ entry ∈ jschema.table keyword, Arrayless entry.2 := by
  intro entry member
  unfold Json.table at member
  split at member
  · next entries isTable => exact arrayless_of_mem (arrayless.of_find isTable).2 entry member
  · cases member

/-- What holds of every result holds of the one there is. -/
theorem forall_ok_iff {ε α : Type} {result : Except ε α} {value : α} {motive : α → Prop}
    (ran : result = .ok value) : (∀ other, result = .ok other → motive other) ↔ motive value := by
  refine ⟨fun all => all value ran, fun holds other same => ?_⟩
  cases ran.symm.trans same
  exact holds

/-- What a child that stays holds mirrors its document where all that stays below fits. -/
theorem Visit.mirrors_iff (visit : Visit) (sorted : visit.jschema.Sorted)
    (document : visit.jconfig.Sorted) (arrayless : Arrayless visit.jschema)
    (plain : ∀ inner, ReflTransGen (Below env) visit inner → Plain inner)
    (readable : ∀ inner, ReflTransGen (Below env) visit inner → inner.level.Readable env) {node : Node}
    (ran : buildAll (plan env visit.jconfig visit.jschema) .empty = .ok node) :
    Mirrors node visit.jconfig ↔
      ∀ inner, ReflTransGen (Stays env) visit inner → inner.level.Fits env := by
  obtain ⟨plainHere, plainBelow⟩ := forall_reached_iff.mp plain
  obtain ⟨readableHere, readableBelow⟩ := forall_reached_iff.mp readable
  have isLevel : visit.level.Sorted := Level.sorted_of document sorted
  have begins : buildAll (plan env visit.jconfig visit.jschema) .empty =
      buildAll ((visit.level.entries env).flatMap Entry.steps) (.composite []) :=
    (samePlan_object sorted plainHere.apart plainHere.regular).builds []
  have notArrays : ∀ entry ∈ visit.level.properties,
      entry.2.hasType Schema.TypeName.ARRAY = false :=
    fun entry member => (arrayless.entry entry member).hasType
  rw [forall_reached_iff]
  refine (mirrors_level_iff isLevel readableHere notArrays (begins.symm.trans ran)).trans
    (and_congr_right fun _ => forall_congr' fun inner => imp_congr_right fun survives => ?_)
  have enters := survives.enters
  have innerSorted := Level.Enters.sorted enters isLevel
  have smaller := sizeOf_of_below enters
  have innerArrayless : Arrayless inner.jschema := by
    cases enters with
    | property isProperty => exact arrayless.entry _ isProperty
    | pattern isPattern => exact arrayless.entry _ isPattern
  obtain ⟨child, builds⟩ := (inner.loads_iff innerSorted.1 innerSorted.2
    (plainBelow inner enters)).mpr (readableBelow inner enters)
  have below := inner.mirrors_iff innerSorted.1 innerSorted.2 innerArrayless
    (plainBelow inner enters) (readableBelow inner enters) builds
  exact (forall_ok_iff builds).trans below
termination_by sizeOf visit.jschema

theorem mirrors_root_iff {jconfig : Json} (sorted : env.jschema.Sorted) (document : jconfig.Sorted)
    (arrayless : Arrayless env.jschema) (ordinary : Ordinary env jconfig)
    (readable : (Level.root env jconfig).Readable env)
    (visited : ∀ visit, Visited env jconfig visit → visit.level.Readable env) {root : Node}
    (ran : buildAll (plan env jconfig (.object (env.jschema.table Keyword.PROPERTIES))) .empty =
      .ok root) :
    Mirrors root jconfig ↔ (Level.root env jconfig).Fits env ∧
      ∀ first, (Level.root env jconfig).Survives env first →
        ∀ visit, ReflTransGen (Stays env) first visit → visit.level.Fits env := by
  have isLevel : (Level.root env jconfig).Sorted := Level.sorted_root document sorted
  have begins : buildAll (plan env jconfig (.object (env.jschema.table Keyword.PROPERTIES))) .empty =
      buildAll (((Level.root env jconfig).entries env).flatMap Entry.steps) (.composite []) :=
    (samePlan_root sorted ordinary).builds []
  have notArrays : ∀ entry ∈ (Level.root env jconfig).properties,
      entry.2.hasType Schema.TypeName.ARRAY = false :=
    fun entry member => (arrayless.entry entry member).hasType
  refine (mirrors_level_iff isLevel readable notArrays (begins.symm.trans ran)).trans
    (and_congr_right fun _ => forall_congr' fun first => imp_congr_right fun survives => ?_)
  have enters := survives.enters
  have innerSorted := enters.sorted isLevel
  have innerArrayless : Arrayless first.jschema := by
    cases enters with
    | property isProperty => exact arrayless.entry _ isProperty
    | pattern isPattern => cases isPattern
  have plain : ∀ inner, ReflTransGen (Below env) first inner → Plain inner :=
    fun inner reached => ordinary.visited inner ⟨first, enters, reached⟩
  have readableBelow : ∀ inner, ReflTransGen (Below env) first inner → inner.level.Readable env :=
    fun inner reached => visited inner ⟨first, enters, reached⟩
  obtain ⟨child, builds⟩ := (first.loads_iff innerSorted.1 innerSorted.2 plain).mpr readableBelow
  have below :=
    first.mirrors_iff innerSorted.1 innerSorted.2 innerArrayless plain readableBelow builds
  exact (forall_ok_iff builds).trans below

/-- The tree of a document is faithful to it when and only when what the loader comes to can be
read and what stays fits. -/
theorem faithful_iff {jconfig : Json} {properties : List (Str × Json)}
    (sorted : env.jschema.Sorted) (document : jconfig.Sorted) (arrayless : Arrayless env.jschema)
    (found : env.jschema.find Keyword.PROPERTIES = some (.object properties)) :
    (Ordinary env jconfig ∧ Loadable env jconfig → Faithful env jconfig (.object properties)) ∧
      (Ordinary env jconfig → Faithful env jconfig (.object properties) → Loadable env jconfig) := by
  have isTable : env.jschema.table Keyword.PROPERTIES = properties := by rw [Json.table, found]
  have ran_iff : ∀ root, fParseAndLoadConfig env jconfig (.object properties) .empty = .ok ⟨⟩ root ↔
      buildAll (plan env jconfig (.object (env.jschema.table Keyword.PROPERTIES))) .empty =
        .ok root := fun root => by
    rw [isTable]
    exact (performs_plan jconfig (.object properties)).eq_ok_iff
  constructor
  · rintro ⟨ordinary, loadable⟩
    obtain ⟨root, ran⟩ := (loads_iff sorted document ordinary).mpr
      ⟨loadable.readable, loadable.visited⟩
    exact ⟨root, (ran_iff root).mpr ran,
      (mirrors_root_iff sorted document arrayless ordinary loadable.readable loadable.visited
        ran).mpr ⟨loadable.fits, loadable.staying⟩⟩
  · rintro ordinary ⟨root, returns, mirrors⟩
    have ran := (ran_iff root).mp returns
    obtain ⟨readable, visited⟩ := (loads_iff sorted document ordinary).mp ⟨root, ran⟩
    obtain ⟨fits, staying⟩ :=
      (mirrors_root_iff sorted document arrayless ordinary readable visited ran).mp mirrors
    exact ⟨readable, visited, fits, staying⟩

end Whole

end FlexConfig

namespace FlexConfig.Sample

/-- The members of a VLAN, by the mode they have. -/
def modes : Json :=
  object [("patternProperties", object [("tagged", object [("type", text "object")])]),
    ("type", text "object")]

def modesDeployed : Env :=
  deployment (object [("properties", object [("members", modes)])]) fun _ => true

/-- A document in which one mode is used. -/
def usingMode (mode : String) : Json := object [("members", object [(mode, object [])])]

theorem modes_sorted : modesDeployed.jschema.Sorted := by
  have modesSorted : modes.Sorted :=
    ⟨by decide, ⟨by decide, ⟨by decide, trivial, trivial⟩, trivial⟩, trivial, trivial⟩
  exact ⟨by decide, ⟨by decide, modesSorted, trivial⟩, trivial⟩

theorem usingMode_sorted (mode : String) : (usingMode mode).Sorted :=
  ⟨.cons nofun .nil, ⟨.cons nofun .nil, ⟨.nil, trivial⟩, trivial⟩, trivial⟩

theorem modes_arrayless : Arrayless modesDeployed.jschema := by
  have modesArrayless : Arrayless modes :=
    ⟨by decide, ⟨by decide, ⟨by decide, trivial, trivial⟩, trivial⟩, trivial, trivial⟩
  exact ⟨by decide, ⟨by decide, modesArrayless, trivial⟩, trivial⟩

/-- A key in which a pattern is found that does not match it as a whole conforms to the schema,
and has no node. -/
theorem untagged_skipped :
    modesDeployed.jschema.Sorted ∧ (usingMode "untagged").Sorted ∧
      Arrayless modesDeployed.jschema ∧
      Conforms Text.contains (usingMode "untagged") modesDeployed.jschema ∧
      ¬ Faithful modesDeployed (usingMode "untagged")
        (object [("members", modes)]) := by
  refine ⟨modes_sorted, usingMode_sorted _, modes_arrayless, ?_, ?_⟩
  · have plain : Conforms Text.contains (object []) (object [("type", text "object")]) :=
      .intro (fun name found => by cases found; rfl) nofun nofun
    have inner : Conforms Text.contains (object [("untagged", object [])]) modes := by
      refine .intro (fun name found => by cases found; rfl) nofun ?_
      intro entry member name value found _
      cases List.mem_singleton.mp member
      have isMember : (name, value) ∈ [("untagged".toList, object [])] := Keyed.mem_of_find found
      cases List.mem_singleton.mp isMember
      exact plain
    refine .intro nofun (fun entry member value found => ?_) nofun
    cases List.mem_singleton.mp member
    cases found
    exact inner
  · rintro ⟨root, ran, mirrors⟩
    have evaluated : fParseAndLoadConfig modesDeployed (usingMode "untagged")
        (object [("members", modes)]) .empty =
          .ok ⟨⟩ (.composite [("members".toList, .composite [])]) := by rfl
    cases evaluated.symm.trans ran
    have nodes := mirrors.nodes ["members".toList, "untagged".toList] (by simp)
    exact absurd (nodes.mpr (by decide)) (by decide)

/-- Where a mode is used. -/
def used : Visit := ⟨modes, object [("tagged", object [])]⟩

theorem find_used {name : Str} {value : Json} (found : used.jconfig.find name = some value) :
    name = "tagged".toList ∧ value = object [] := by
  have isMember : (name, value) ∈ [("tagged".toList, object [])] := Keyed.mem_of_find found
  cases List.mem_singleton.mp isMember
  exact ⟨rfl, rfl⟩

theorem visited_used {visit : Visit} (visited : Visited modesDeployed (usingMode "tagged") visit) :
    visit = used := by
  obtain ⟨first, enters, reached⟩ := visited
  have isUsed : first = used := by
    cases enters with
    | property isProperty found =>
        cases List.mem_singleton.mp isProperty
        cases found
        rfl
    | pattern isPattern => cases isPattern
  subst isUsed
  obtain rfl | ⟨next, below, _⟩ := reached.cases_head
  · rfl
  · cases below with
    | property isProperty => cases isProperty
    | pattern isPattern _ _ descends =>
        cases List.mem_singleton.mp isPattern
        cases descends

theorem tagged_ordinary : Ordinary modesDeployed (usingMode "tagged") := by
  refine ⟨⟨by decide, fun entry member array => ?_⟩, fun visit visited => ?_⟩
  · cases List.mem_singleton.mp member
    cases array
  · cases visited_used visited
    refine ⟨fun name present keyword found => ?_, ⟨by decide, nofun⟩⟩
    obtain ⟨value, isMember⟩ := Option.isSome_iff_exists.mp present
    obtain ⟨rfl, rfl⟩ := find_used isMember
    cases found

theorem tagged_loadable : Loadable modesDeployed (usingMode "tagged") := by
  refine ⟨⟨nofun, ?_, ?_, nofun⟩, fun visit visited => ?_, ⟨?_, ?_, ?_, nofun⟩, ?_⟩
  · intro entry member array
    cases List.mem_singleton.mp member
    cases array
  · intro entry member _ leaf
    cases List.mem_singleton.mp member
    cases leaf
  · cases visited_used visited
    refine ⟨fun entry member value found => ?_, nofun, nofun, fun _ _ _ _ => rfl⟩
    obtain ⟨named, rfl⟩ := find_used found
    have noKeyword : "tagged".toList ∉ Keyed.keys modes.fields := by decide
    exact absurd (named ▸ List.mem_map_of_mem member) noKeyword
  · intro name present
    obtain ⟨value, found⟩ := Option.isSome_iff_exists.mp present
    have isMember : (name, value) ∈ [("members".toList, used.jconfig)] := Keyed.mem_of_find found
    cases List.mem_singleton.mp isMember
    rfl
  · intro name value rule found _ _
    have isMember : (name, value) ∈ [("members".toList, used.jconfig)] := Keyed.mem_of_find found
    cases List.mem_singleton.mp isMember
    rfl
  · intro name value pattern jschema _ governs
    cases (Level.mem_of_governing_pattern governs).1
  · intro first survives visit reached
    have below := Relation.ReflTransGen.mono (fun _ _ => Level.Survives.enters) _ _ reached
    cases visited_used ⟨first, survives.enters, below⟩
    refine ⟨fun name present => ?_, fun name value _ found _ _ => ?_,
      fun name value _ _ found _ _ inner => ?_, ?_⟩
    · obtain ⟨value, found⟩ := Option.isSome_iff_exists.mp present
      obtain ⟨rfl, rfl⟩ := find_used found
      rfl
    · obtain ⟨rfl, rfl⟩ := find_used found
      rfl
    · obtain ⟨rfl, rfl⟩ := find_used found
      rfl
    · intro item isItem _ _ _
      cases List.mem_singleton.mp isItem
      rfl

theorem tagged_loaded :
    Faithful modesDeployed (usingMode "tagged") (object [("members", modes)]) :=
  (faithful_iff modes_sorted (usingMode_sorted _) modes_arrayless rfl).1
    ⟨tagged_ordinary, tagged_loadable⟩

end FlexConfig.Sample
