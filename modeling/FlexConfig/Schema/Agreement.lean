import FlexConfig.Schema.Faithfulness

/-! # Where the lookup follows the loader

The loader goes down the schema with the document, and the lookup goes down it again with
the names of a path. The lookup ends at the schema object under which the loader has
created a node where it takes the same rule at every composite on the way.
-/

namespace FlexConfig

open Procedure Schema PlanStep
open Relation (ReflTransGen)

/-- The lookup for every node of the tree finds the attributes of the schema object under which
the loader has created the node. -/
def Agrees (env : Env) (jconfig : Json) : Prop :=
  ∀ root, buildTree env jconfig = .ok root →
    ∀ location, location ≠ [] → (root.get location).isSome →
      ∃ creator found, createdUnder (rootPlan env jconfig) location = some creator ∧
        env.getSchemaByXPath (XPath.toString location) = .ok (some found) ∧
        loadSchemaAttributes creator = .ok found.attributes

/-- A text that is read as a pointer token to a key. -/
def ReadsAs (text key : Str) : Prop := Json.Pointer.parse ('/' :: text) = .ok [key]

namespace Env

variable (env : Env)

/-- From a schema object the lookup takes the rule by which a child has come to be. -/
def Follows (schema : Json) (patterns : List (Str × Json)) (name : Str) (value : Json) :
    Rule → Prop
  | .keyword _ => False
  | .property jschema =>
    ReadsAs name name ∧ (∃ attributes, loadSchemaAttributes jschema = .ok attributes) ∧
      (jschema.hasType Schema.TypeName.ARRAY = true → value.values = []) ∧
      (schema.find name = none →
        schema.find Keyword.PATTERN_PROPERTIES = none ∧ jschema.isEmpty = false)
  | .pattern pattern jschema =>
    (∃ attributes, loadSchemaAttributes jschema = .ok attributes) ∧ schema.find name = none ∧
      ∃ first, env.matchingPattern name patterns = .ok (some first) ∧ ReadsAs first pattern

end Env

/-- At a level the lookup takes the rules of the loader, and every child is that of a member
whose name is a token without a NUL. -/
structure Level.Followed (env : Env) (level : Level) (schema : Json) : Prop where
  rules : ∀ name value rule, level.jconfig.find name = some value →
    level.governing env name = some rule →
      (XPath.IsToken name ∧ Text.NUL ∉ name) ∧ env.Follows schema level.patterns name value rule
  matched : ∀ item ∈ level.jconfig.items, ∀ pattern ∈ level.patterns,
    env.regexMatch pattern.1 item.1 = some true → (level.jconfig.find item.1).isSome

/-- No name of a level is printed without a separator in front of it. -/
def Level.Unsubscripted (env : Env) (level : Level) : Prop :=
  ∀ name, (level.jconfig.find name).isSome → (level.governing env name).isSome →
    ¬ XPath.IsSubscript name

/-- The lookup follows the loader at every level that stays. -/
structure Traced (env : Env) (jconfig : Json) : Prop where
  properties : ∃ properties, env.jschema.find Keyword.PROPERTIES = some (.object properties)
  root : (Level.root env jconfig).Followed env
    (.object (env.jschema.table Keyword.PROPERTIES))
  staying : ∀ first, (Level.root env jconfig).Survives env first →
    ∀ visit, ReflTransGen (Stays env) first visit →
      visit.level.Followed env visit.jschema ∧ visit.level.Unsubscripted env

variable {env : Env}

section Steps

theorem readsAs_properties : ReadsAs Keyword.PROPERTIES Keyword.PROPERTIES := rfl

theorem readsAs_patternProperties :
    ReadsAs Keyword.PATTERN_PROPERTIES Keyword.PATTERN_PROPERTIES := rfl

theorem atText_nil (json : Json) : json.atText [] = .ok json := by
  cases json <;> rfl

variable {schema owner jschema : Json} {name composed : Str}

/-- The text the lookup composes for an entry leads to it. -/
theorem atText_entry {keyword text key : Str} (reached : env.jschema.atText composed = .ok owner)
    (readsKeyword : ReadsAs keyword keyword) (reads : ReadsAs text key)
    (isEntry : Keyed.find key (owner.table keyword) = some jschema) :
    env.jschema.atText (composed ++ '/' :: keyword ++ '/' :: text) = .ok jschema := by
  have isTable := Json.find_table isEntry
  have table : env.jschema.atText (composed ++ '/' :: keyword) = .ok (.object (owner.table keyword)) := by
    rw [Json.atText_append reached readsKeyword]
    cases owner with
    | object members =>
        have inside : Keyed.find keyword members = some _ := isTable
        rw [Json.pointed, inside, Option.getD_some]
        simp [Json.pointed]
    | null | bool | number | string | array => cases isTable
  rw [Json.atText_append table reads, Json.pointed, isEntry, Option.getD_some]
  simp [Json.pointed]

theorem schemaStep_property (reached : env.jschema.atText composed = .ok owner)
    (reads : ReadsAs name name)
    (isProperty : Keyed.find name (owner.table Keyword.PROPERTIES) = some jschema)
    (free : schema.find name = none →
      schema.find Keyword.PATTERN_PROPERTIES = none ∧ jschema.isEmpty = false) :
    env.schemaStep schema composed name =
      .ok (some (jschema, composed ++ '/' :: Keyword.PROPERTIES ++ '/' :: name)) := by
  have entry := atText_entry reached readsAs_properties reads isProperty
  unfold Env.schemaStep
  cases named : schema.find name with
  | some keyword =>
      change (env.jschema.atText (composed ++ '/' :: Keyword.PROPERTIES ++ '/' :: name) >>= _) = _
      rw [entry]
      rfl
  | none =>
      obtain ⟨noPatterns, nonempty⟩ := free named
      rw [noPatterns]
      change (env.jschema.atText (composed ++ '/' :: Keyword.PROPERTIES ++ '/' :: name) >>= _) = _
      rw [entry]
      change Except.ok (if jschema.isEmpty then none else _) = _
      rw [nonempty]
      rfl

theorem schemaStep_pattern {first pattern : Str} (reached : env.jschema.atText composed = .ok owner)
    (isPattern : Keyed.find pattern (owner.table Keyword.PATTERN_PROPERTIES) = some jschema)
    (unnamed : owner.find name = none) (reads : ReadsAs first pattern)
    (isFirst : env.matchingPattern name (owner.table Keyword.PATTERN_PROPERTIES) =
      .ok (some first)) :
    env.schemaStep owner composed name =
      .ok (some (jschema, composed ++ '/' :: Keyword.PATTERN_PROPERTIES ++ '/' :: first)) := by
  have entry := atText_entry reached readsAs_patternProperties reads isPattern
  unfold Env.schemaStep
  rw [unnamed, Json.find_table isPattern]
  change (env.matchingPattern name (owner.table Keyword.PATTERN_PROPERTIES) >>= _) = _
  rw [isFirst]
  change (env.jschema.atText (composed ++ '/' :: Keyword.PATTERN_PROPERTIES ++ '/' :: first)
    >>= _) = _
  rw [entry]
  rfl

end Steps

section Lookup

variable {level : Level} {schema owner : Json} {name : Str} {value : Json} {rule : Rule}
  {composed : Str}

/-- Where the properties and patterns of a level stand in the schema, and what the lookup reads
there: at the root the properties themselves, and further down the schema object. -/
structure Level.StandsAt (env : Env) (level : Level) (schema : Json) (composed : Str) : Prop where
  properties : ∃ owner, env.jschema.atText composed = .ok owner ∧
    level.properties = owner.table Keyword.PROPERTIES
  patterns : level.patterns = [] ∨ env.jschema.atText composed = .ok schema ∧
    level.patterns = schema.table Keyword.PATTERN_PROPERTIES ∧ schema.Sorted

theorem Level.find_of_governing_property {jschema : Json}
    (governs : level.governing env name = some (.property jschema)) :
    Keyed.find name level.properties = some jschema := by
  unfold Level.governing at governs
  split at governs
  · next isProperty =>
      cases governs
      exact isProperty
  · simp [Option.or_eq_some_iff] at governs

/-- One step of the lookup goes to the schema object of the rule. -/
theorem schemaStep_of_follows (stands : level.StandsAt env schema composed)
    (governs : level.governing env name = some rule)
    (follows : env.Follows schema level.patterns name value rule) :
    ∃ next, env.jschema.atText next = .ok rule.jschema ∧
      env.schemaStep schema composed name = .ok (some (rule.jschema, next)) := by
  cases rule with
  | keyword => exact follows.elim
  | property jschema =>
      obtain ⟨owner, reached, properties⟩ := stands.properties
      obtain ⟨reads, _, _, free⟩ := follows
      have isProperty := Level.find_of_governing_property governs
      rw [properties] at isProperty
      exact ⟨_, atText_entry reached readsAs_properties reads isProperty,
        schemaStep_property reached reads isProperty free⟩
  | pattern pattern jschema =>
      obtain ⟨isEntry, _⟩ := Level.mem_of_governing_pattern governs
      obtain ⟨_, unnamed, first, isFirst, reads⟩ := follows
      rcases stands.patterns with none | ⟨reached, patterns, sorted⟩
      · rw [none] at isEntry
        cases isEntry
      · rw [patterns] at isFirst isEntry
        have isPattern := (Keyed.find_eq_some_iff sorted.table.1).mpr isEntry
        exact ⟨_, atText_entry reached readsAs_patternProperties reads isPattern,
          schemaStep_pattern reached isPattern unnamed reads isFirst⟩

/-- A node below a level is in the tree of the entry that stays of its name. -/
theorem Level.child_of_get (sorted : level.Sorted) (regexes : level.Regexes env)
    (followed : level.Followed env schema) {node : Node}
    (ran : buildAll ((level.entries env).flatMap Entry.steps) (.composite []) = .ok node)
    {rest : Location} (present : (node.get (name :: rest)).isSome) :
    ∃ value rule tree, level.jconfig.find name = some value ∧
      level.governing env name = some rule ∧
      Entry.lastOf name (level.entries env) = some (rule.entry env name value) ∧
      (rule.entry env name value).tree = .ok tree ∧ (tree.get rest).isSome := by
  have built := built_of_buildAll ran
  obtain ⟨last, isLast⟩ := Option.isSome_iff_exists.mp present
  obtain ⟨child, isChild, below⟩ := Option.bind_eq_some_iff.mp isLast
  rw [built.finds] at isChild
  cases entryOf : Entry.lastOf name (level.entries env) with
  | none =>
      rw [entryOf] at isChild
      cases isChild
  | some entry =>
      rw [entryOf] at isChild
      cases found : level.jconfig.find name with
      | none =>
          have unmatched : Entry.lastOf name (level.entries env) = none := by
            refine (Level.lastOf_entries_eq_none_iff regexes found).mpr ?_
            rintro item isItem rfl pattern isPattern matched
            have member := followed.matched item isItem pattern isPattern matched
            rw [found] at member
            cases member
          cases unmatched.symm.trans entryOf
      | some value =>
          have governed := Level.lastOf_entries sorted regexes found
          rw [entryOf] at governed
          obtain ⟨rule, governs, rfl⟩ := Option.map_eq_some_iff.mp governed.symm
          obtain ⟨tree, builds⟩ := built.trees _ (Entry.mem_of_lastOf entryOf).1
          have same : child = tree := by
            dsimp only at isChild
            rw [builds] at isChild
            exact (Option.some_inj.mp isChild).symm
          subst same
          exact ⟨value, rule, child, rfl, governs, rfl, builds, Option.isSome_iff_exists.mpr ⟨last, below⟩⟩

/-- Only a rule with a plan for what is below its child has nodes there. -/
theorem descends_of_get (follows : env.Follows schema level.patterns name value rule) {tree : Node}
    (builds : (rule.entry env name value).tree = .ok tree) {next : Str} {rest : Location}
    (present : (tree.get (next :: rest)).isSome) : rule.Descends := by
  have noLeaf : leafOf value ≠ .ok tree := fun leaf => by
    obtain ⟨text, rfl⟩ := leafOf_eq_ok_iff.mp ⟨tree, leaf⟩
    cases leaf
    cases present
  cases rule with
  | keyword => exact follows.elim
  | property jschema =>
      change (propertyEntry env name jschema value).tree = .ok tree at builds
      unfold propertyEntry at builds
      refine ⟨Bool.eq_false_iff.mpr fun isArray => ?_, Bool.eq_false_iff.mpr fun isLeaf => ?_⟩
      · rw [if_pos isArray, follows.2.2.1 isArray] at builds
        cases builds
        cases present
      · split at builds
        · next isArray =>
            rw [follows.2.2.1 isArray] at builds
            cases builds
            cases present
        · exact noLeaf ((tree_keywordEntry name jschema value).symm.trans builds)
  | pattern pattern jschema =>
      by_contra bare
      have inner : (Rule.entry env name value (.pattern pattern jschema)).inner = none :=
        if_neg bare
      rw [Entry.tree, inner] at builds
      cases builds
      cases present

theorem Level.standsAt_of_visit {visit : Visit}
    (reached : env.jschema.atText composed = .ok visit.jschema) (sorted : visit.jschema.Sorted) :
    visit.level.StandsAt env visit.jschema composed :=
  ⟨⟨visit.jschema, reached, rfl⟩, Or.inr ⟨reached, rfl, sorted⟩⟩

theorem createdUnder_of_same {steps others : List PlanStep}
    (same : additionsOfAll steps = additionsOfAll others) (location : Location) :
    createdUnder steps location = createdUnder others location := by
  unfold createdUnder
  rw [same]

/-- The attributes of the schema object of a rule that the lookup follows can be loaded. -/
theorem Env.Follows.attributes {patterns : List (Str × Json)}
    (follows : env.Follows schema patterns name value rule) :
    ∃ attributes, loadSchemaAttributes rule.jschema = .ok attributes := by
  cases rule with
  | keyword => exact follows.elim
  | property => exact follows.2.1
  | pattern => exact follows.1

/-- The lookup goes down with the loader to every node below a level. -/
theorem lookup_level (location : Location) (nonempty : location ≠ []) {level : Level} {schema : Json}
    {composed : Str} (sorted : level.Sorted) (stands : level.StandsAt env schema composed)
    (regexes : level.Regexes env) (followed : level.Followed env schema)
    (readable : ∀ visit, level.Enters env visit →
      ∀ inner, ReflTransGen (Below env) visit inner → Plain inner ∧ inner.level.Readable env)
    (staying : ∀ visit, level.Survives env visit →
      ∀ inner, ReflTransGen (Stays env) visit inner →
        inner.level.Followed env inner.jschema ∧ inner.level.Unsubscripted env) {node : Node}
    (ran : buildAll ((level.entries env).flatMap Entry.steps) (.composite []) = .ok node)
    (present : (node.get location).isSome) (start : SchemaNode) :
    ((∀ name ∈ location, XPath.IsToken name ∧ Text.NUL ∉ name) ∧ (∀ name ∈ location.tail, ¬ XPath.IsSubscript name) ∧
      ∀ name ∈ location.head?, (level.jconfig.find name).isSome ∧
        (level.governing env name).isSome) ∧
    ∃ creator found, createdUnder ((level.entries env).flatMap Entry.steps) location = some creator ∧
      env.schemaNodeOf location schema composed start = .ok (some found) ∧
      loadSchemaAttributes creator = .ok found.attributes := by
  induction location generalizing level schema composed node start with
  | nil => exact absurd rfl nonempty
  | cons name rest ih =>
      obtain ⟨value, rule, tree, found, governs, last, builds, below⟩ :=
        Level.child_of_get sorted regexes followed ran present
      obtain ⟨isToken, follows⟩ := followed.rules name value rule found governs
      obtain ⟨next, reached, step⟩ := schemaStep_of_follows stands governs follows
      obtain ⟨attributes, loaded⟩ := follows.attributes
      have walked : env.schemaNodeOf (name :: rest) schema composed start =
          env.schemaNodeOf rest rule.jschema next ⟨start.path ++ [name], attributes⟩ := by
        rw [Env.schemaNodeOf, step]
        change (loadSchemaAttributes rule.jschema >>= _) = _
        rw [loaded]
        rfl
      have first : ∀ head ∈ (name :: rest).head?,
          (level.jconfig.find head).isSome ∧ (level.governing env head).isSome := by
        intro head isHead
        cases isHead
        exact ⟨Option.isSome_iff_exists.mpr ⟨value, found⟩, Option.isSome_iff_exists.mpr ⟨rule, governs⟩⟩
      cases rest with
      | nil =>
          refine ⟨⟨List.forall_mem_singleton.mpr isToken, nofun, first⟩, ?_⟩
          refine ⟨rule.jschema, ⟨start.path ++ [name], attributes⟩, ?_, ?_, loaded⟩
          · refine createdUnder_child last [] ?_
            have self := createdUnder_steps_self (rule.entry env name value)
            rw [Rule.entry_name, Rule.entry_jschema] at self
            exact self
          · rw [walked]
            rfl
      | cons second others =>
          have descends := descends_of_get follows builds below
          have survives : level.Survives env ⟨rule.jschema, value⟩ := .child found governs descends
          have enters := survives.enters
          have innerSorted := enters.sorted sorted
          obtain ⟨here, later⟩ := forall_reached_iff.mp (readable _ enters)
          obtain ⟨followedHere, followedLater⟩ := forall_reached_iff.mp (staying _ survives)
          have same : SamePlan (plan env value rule.jschema) _ :=
            samePlan_object innerSorted.1 here.1.apart here.1.regular
          rw [Rule.tree_of_descends descends] at builds
          have begins : buildAll (((Visit.level ⟨rule.jschema, value⟩).entries env).flatMap Entry.steps)
              (.composite []) = .ok tree := (same.builds []).symm.trans builds
          obtain ⟨⟨tokens, unsubscripted, head⟩, creator, last', created, looked, agree⟩ :=
            ih (List.cons_ne_nil _ _) (Level.sorted_of innerSorted.2 innerSorted.1)
              (Level.standsAt_of_visit reached innerSorted.1) here.2.regexes followedHere.1
              later followedLater begins below ⟨start.path ++ [name], attributes⟩
          have second_plain : ¬ XPath.IsSubscript second :=
            followedHere.2 second (head second rfl).1 (head second rfl).2
          refine ⟨⟨List.forall_mem_cons.mpr ⟨isToken, tokens⟩,
            List.forall_mem_cons.mpr ⟨second_plain, unsubscripted⟩, first⟩, ?_⟩
          refine ⟨creator, last', ?_, walked.trans looked, agree⟩
          refine createdUnder_child last (second :: others) ?_
          have inside := createdUnder_steps_inner (@Rule.entry_inner env name value rule descends).2
            ((createdUnder_of_same same.adds _).trans created)
          rw [Rule.entry_name] at inside
          exact inside

end Lookup

/-- The lookup agrees with the loader where it follows it. -/
theorem agrees_of_traced {jconfig : Json} (sorted : env.jschema.Sorted) (document : jconfig.Sorted)
    (ordinary : Ordinary env jconfig) (traced : Traced env jconfig) : Agrees env jconfig := by
  intro root built location nonempty present
  obtain ⟨properties, found⟩ := traced.properties
  have isTable : env.jschema.table Keyword.PROPERTIES = properties := by rw [Json.table, found]
  have planned : rootPlan env jconfig =
      plan env jconfig (.object (env.jschema.table Keyword.PROPERTIES)) := by
    rw [rootPlan, found, isTable]
  have ran : buildAll (plan env jconfig (.object (env.jschema.table Keyword.PROPERTIES))) .empty =
      .ok root := by
    rw [isTable]
    exact (buildTree_eq_ok_iff found).mp built
  have isLevel : (Level.root env jconfig).Sorted := Level.sorted_root document sorted
  obtain ⟨readable, visited⟩ := (loads_iff sorted document ordinary).mp ⟨root, ran⟩
  have same := samePlan_root sorted ordinary
  have stands : (Level.root env jconfig).StandsAt env
      (.object (env.jschema.table Keyword.PROPERTIES)) [] :=
    ⟨⟨env.jschema, atText_nil env.jschema, rfl⟩, Or.inl rfl⟩
  obtain ⟨⟨tokens, unsubscripted, _⟩, creator, last, created, looked, agree⟩ :=
    lookup_level location nonempty isLevel stands readable.regexes traced.root
      (fun visit enters inner reached =>
        ⟨ordinary.visited inner ⟨visit, enters, reached⟩, visited inner ⟨visit, enters, reached⟩⟩)
      traced.staying ((same.builds []).symm.trans ran) present ⟨[], []⟩
  refine ⟨creator, last, ?_, ?_, agree⟩
  · rw [planned, createdUnder_of_same same.adds]
    exact created
  · have loaded : env.loadedSchema = .ok env.jschema := by
      unfold Env.loadedSchema
      rw [if_neg]
      rintro null
      rw [null] at found
      cases found
    unfold Env.getSchemaByXPath
    refine except_bind_eq_ok.mpr ⟨env.jschema, loaded, ?_⟩
    have read := XPath.parse_toString (fun name member => (tokens name member).1) unsubscripted
      fun name member => (tokens name member).2
    rw [found, read, ← isTable]
    exact looked

end FlexConfig

namespace FlexConfig.Sample

/-- A schema object with both a property and a pattern. -/
def mixed : Json :=
  object [("patternProperties", object [("x", object [("type", text "object")])]),
    ("properties", object [("b", object [("reference", text "/c"), ("type", text "string")])]),
    ("type", text "object")]

def mixedDeployed : Env :=
  deployment (object [("properties", object [("a", mixed)])]) fun _ => true

def mixedConfig : Json := object [("a", object [("b", text "v")])]

/-- The property of an object with patterns is not found: the lookup asks the patterns only. -/
theorem property_beside_patterns_missed :
    mixedDeployed.jschema.Sorted ∧ mixedConfig.Sorted ∧
      Conforms Text.contains mixedConfig mixedDeployed.jschema ∧
      ¬ Agrees mixedDeployed mixedConfig := by
  refine ⟨?_, ?_, ?_, ?_⟩
  · have sorted : mixed.Sorted :=
      ⟨by decide, ⟨by decide, ⟨by decide, trivial, trivial⟩, trivial⟩,
        ⟨by decide, ⟨by decide, trivial, trivial, trivial⟩, trivial⟩, trivial, trivial⟩
    exact ⟨by decide, ⟨by decide, sorted, trivial⟩, trivial⟩
  · exact ⟨by decide, ⟨by decide, trivial, trivial⟩, trivial⟩
  · have leaf : Conforms Text.contains (text "v")
        (object [("reference", text "/c"), ("type", text "string")]) :=
      .intro (fun name found => by cases found; rfl) nofun nofun
    have inner : Conforms Text.contains (object [("b", text "v")]) mixed := by
      refine .intro (fun name found => by cases found; rfl) (fun entry member value found => ?_) ?_
      · cases List.mem_singleton.mp member
        cases found
        exact leaf
      · intro entry member name value found contains
        cases List.mem_singleton.mp member
        have isMember : (name, value) ∈ [("b".toList, text "v")] := Keyed.mem_of_find found
        cases List.mem_singleton.mp isMember
        cases contains
    refine .intro nofun (fun entry member value found => ?_) nofun
    cases List.mem_singleton.mp member
    cases found
    exact inner
  · intro agrees
    have built : buildTree mixedDeployed mixedConfig =
        .ok (.composite [("a".toList, .composite [("b".toList, .leaf "v".toList)])]) := by rfl
    obtain ⟨_, _, _, looked, _⟩ := agrees _ built ["a".toList, "b".toList] (by simp) (by decide)
    have missed : mixedDeployed.getSchemaByXPath (XPath.toString ["a".toList, "b".toList]) =
        .ok none := by rfl
    cases missed.symm.trans looked

theorem tagged_traced : Traced modesDeployed (usingMode "tagged") := by
  refine ⟨⟨_, rfl⟩, ⟨fun name value rule found governs => ?_, nofun⟩, ?_⟩
  · have isMember : (name, value) ∈ [("members".toList, used.jconfig)] := Keyed.mem_of_find found
    cases List.mem_singleton.mp isMember
    cases governs
    exact ⟨⟨⟨by decide, by decide⟩, by decide⟩, rfl, ⟨_, rfl⟩, nofun, nofun⟩
  · intro first survives visit reached
    have below := Relation.ReflTransGen.mono (fun _ _ => Level.Survives.enters) _ _ reached
    cases visited_used ⟨first, survives.enters, below⟩
    refine ⟨⟨fun name value rule found governs => ?_, fun item isItem _ _ _ => ?_⟩, ?_⟩
    · obtain ⟨rfl, rfl⟩ := find_used found
      cases governs
      exact ⟨⟨⟨by decide, by decide⟩, by decide⟩, ⟨_, rfl⟩, rfl, _, rfl, rfl⟩
    · cases List.mem_singleton.mp isItem
      rfl
    · intro name present _
      obtain ⟨value, found⟩ := Option.isSome_iff_exists.mp present
      obtain ⟨rfl, rfl⟩ := find_used found
      simp [XPath.IsSubscript]

theorem tagged_agrees : Agrees modesDeployed (usingMode "tagged") :=
  agrees_of_traced modes_sorted (usingMode_sorted _) tagged_ordinary tagged_traced

end FlexConfig.Sample
