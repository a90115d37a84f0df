import FlexConfig.Schema.Levels

/-! # When the loader returns

The loader goes below a level for each property and each matching pattern that has a plan of
its own, whether or not the child stays. It returns when it can read every value and
every pattern it comes to on the way.
-/

namespace FlexConfig

open Procedure Schema PlanStep Relation

/-- A schema object, and what the document has where it is used. -/
structure Visit where
  jschema : Json
  jconfig : Json

def Visit.level (visit : Visit) : Level := .of visit.jconfig visit.jschema

namespace Level

/-- The loader goes from a level below one of its children. -/
inductive Enters (env : Env) (level : Level) : Visit → Prop where
  | property {name : Str} {jschema value : Json}
      (isProperty : (name, jschema) ∈ level.properties)
      (found : level.jconfig.find name = some value)
      (descends : (Rule.property jschema).Descends) : Enters env level ⟨jschema, value⟩
  | pattern {pattern name : Str} {jschema value : Json}
      (isPattern : (pattern, jschema) ∈ level.patterns)
      (item : (name, value) ∈ level.jconfig.items)
      (matched : env.regexMatch pattern name = some true)
      (descends : hasSubnodes jschema = true) : Enters env level ⟨jschema, value⟩

/-- What is read at a level can be read: the items of arrays and the values of leaves are
strings, and the patterns are regular expressions. -/
structure Readable (env : Env) (level : Level) : Prop where
  keywords : ∀ entry ∈ level.keywords,
    ∀ value, level.jconfig.find entry.1 = some value → ∃ text, value = .string text
  items : ∀ entry ∈ level.properties, entry.2.hasType Schema.TypeName.ARRAY = true →
    ∀ value, level.jconfig.find entry.1 = some value →
      ∀ item ∈ value.values, ∃ text, item = .string text
  leaves : ∀ entry ∈ level.properties, entry.2.hasType Schema.TypeName.ARRAY = false →
    isLeafSchema entry.2 = true →
      ∀ value, level.jconfig.find entry.1 = some value → ∃ text, value = .string text
  regexes : level.Regexes env

end Level

/-- The loader goes below a visited child from another one. -/
def Below (env : Env) (outer inner : Visit) : Prop := outer.level.Enters env inner

/-- A child below which the loader goes. -/
def Visited (env : Env) (jconfig : Json) (visit : Visit) : Prop :=
  ∃ first, (Level.root env jconfig).Enters env first ∧ ReflTransGen (Below env) first visit

/-- No name of a visited value is taken for a keyword with nodes below it. -/
structure Plain (visit : Visit) : Prop where
  apart : Apart visit.jconfig visit.jschema
  regular : Regular visit.jconfig visit.level.properties

/-- No name of the document is taken for a keyword with nodes below it. -/
structure Ordinary (env : Env) (jconfig : Json) : Prop where
  root : Regular jconfig (Level.root env jconfig).properties
  visited : ∀ visit, Visited env jconfig visit → Plain visit

/-- A plan can be built. -/
def Loads (steps : List PlanStep) : Prop := ∃ node, buildAll steps .empty = .ok node

variable {env : Env}

section Sorted

theorem sorted_item {json : Json} (sorted : json.Sorted) :
    ∀ item ∈ json.items, item.2.Sorted := by
  intro item member
  cases json with
  | null => cases member
  | bool | number | string =>
      cases List.mem_singleton.mp member
      exact trivial
  | array elements =>
      obtain ⟨⟨element, index⟩, inside, rfl⟩ := List.mem_map.mp member
      have isElement : element ∈ elements := (List.mem_zipIdx inside).2.2 ▸ List.getElem_mem _
      exact Json.sorted_of_mem_elements sorted element isElement
  | object members => exact Json.sorted_of_mem sorted.2 item member

theorem Level.Enters.sorted {level : Level} {visit : Visit} (enters : level.Enters env visit)
    (sorted : level.Sorted) : visit.jschema.Sorted ∧ visit.jconfig.Sorted := by
  cases enters with
  | property isProperty found =>
      exact ⟨sorted.property _ isProperty, sorted.jconfig.of_find found⟩
  | pattern isPattern item =>
      exact ⟨sorted.pattern _ isPattern, sorted_item sorted.jconfig _ item⟩

end Sorted

section Trees

/-- The items of an array can be added when they are strings. -/
theorem loads_items_iff {jschema : Json} {items : List Json} (node : Node) :
    (∃ last, buildAll (itemsPlan jschema items) node = .ok last) ↔
      ∀ item ∈ items, ∃ text, item = .string text := by
  induction items generalizing node with
  | nil => exact iff_of_true ⟨node, rfl⟩ fun _ impossible => (by cases impossible)
  | cons item rest ih =>
      rw [List.forall_mem_cons]
      unfold itemsPlan at ih ⊢
      cases read : item.getString with
      | ok text =>
          rw [List.map_cons, read, and_iff_right ⟨text, getString_eq_ok_iff.mp read⟩]
          exact ih (node.add text (.leaf text))
      | error reason =>
          rw [List.map_cons, read]
          refine iff_of_false (fun ⟨_, impossible⟩ => by cases impossible) fun both => ?_
          obtain ⟨text, same⟩ := both.1
          rw [same] at read
          cases read

theorem leafOf_eq_ok_iff {value : Json} :
    (∃ node, leafOf value = .ok node) ↔ ∃ text, value = .string text := by
  unfold leafOf
  cases value with
  | string text => exact iff_of_true ⟨_, rfl⟩ ⟨text, rfl⟩
  | null | bool | number | array | object => simp [Json.getString, Except.map]

theorem tree_keywordEntry (name : Str) (keyword value : Json) :
    (keywordEntry name keyword value).tree = leafOf value := by
  unfold Entry.tree keywordEntry
  cases leafOf value <;> rfl

theorem propertyEntry_tree_iff {name : Str} {jschema value : Json} :
    (∃ tree, (propertyEntry env name jschema value).tree = .ok tree) ↔
      (jschema.hasType Schema.TypeName.ARRAY = true →
        ∀ item ∈ value.values, ∃ text, item = .string text) ∧
      (jschema.hasType Schema.TypeName.ARRAY = false → isLeafSchema jschema = true →
        ∃ text, value = .string text) ∧
      ((Rule.property jschema).Descends → Loads (plan env value jschema)) := by
  unfold propertyEntry Rule.Descends
  cases isArray : jschema.hasType Schema.TypeName.ARRAY with
  | true =>
      have items : (∃ tree, buildAll (itemsPlan jschema value.values) .empty = .ok tree) ↔ _ :=
        loads_items_iff .empty
      rw [if_pos rfl]
      refine items.trans ⟨fun all => ⟨fun _ => all, ?_, ?_⟩, fun all => all.1 rfl⟩
      · exact nofun
      · exact fun descends => by cases isArray.symm.trans descends.1
  | false =>
      rw [if_neg Bool.false_ne_true]
      cases isLeaf : isLeafSchema jschema with
      | true =>
          have leaf : Entry.tree ⟨name, jschema, leafOf value, none⟩ = leafOf value :=
            tree_keywordEntry name jschema value
          rw [if_pos rfl, leaf]
          refine leafOf_eq_ok_iff.trans
            ⟨fun read => ⟨nofun, fun _ _ => read, ?_⟩, fun all => all.2.1 rfl rfl⟩
          exact fun descends => by cases isLeaf.symm.trans descends.2
      | false =>
          rw [if_neg Bool.false_ne_true]
          exact ⟨fun loads => ⟨nofun, fun _ => nofun, fun _ => loads⟩, fun all =>
            all.2.2 ⟨isArray, isLeaf⟩⟩

theorem entriesFor_trees_iff {make : Str → Json → Json → Entry} {jconfig : Json}
    {members : List (Str × Json)} :
    (∀ entry ∈ entriesFor make jconfig members, ∃ tree, entry.tree = .ok tree) ↔
      ∀ member ∈ members, ∀ value, jconfig.find member.1 = some value →
        ∃ tree, (make member.1 member.2 value).tree = .ok tree := by
  simp only [entriesFor, List.mem_filterMap, Option.map_eq_some_iff]
  constructor
  · exact fun all member isMember value found => all _ ⟨member, isMember, value, found, rfl⟩
  · rintro all entry ⟨member, isMember, value, found, rfl⟩
    exact all member isMember value found

theorem patternEntry_tree_iff {name : Str} {value : Json} {pattern : Str × Json} :
    (∀ entry ∈ patternEntry env name value pattern, ∃ tree, entry.tree = .ok tree) ↔
      (env.regexMatch pattern.1 name).isSome = true ∧
        (env.regexMatch pattern.1 name = some true → hasSubnodes pattern.2 = true →
          Loads (plan env value pattern.2)) := by
  unfold patternEntry Env.regex_match
  cases matched : env.regexMatch pattern.1 name with
  | none =>
      refine iff_of_false (fun all => ?_) fun both => Bool.false_ne_true both.1
      obtain ⟨_, impossible⟩ := all _ rfl
      cases impossible
  | some answer =>
      cases answer with
      | false => exact iff_of_true nofun ⟨rfl, nofun⟩
      | true =>
          cases subnodes : hasSubnodes pattern.2 with
          | true =>
              refine ⟨fun all => ⟨rfl, fun _ _ => all _ rfl⟩, fun both entry member => ?_⟩
              cases member
              exact both.2 rfl rfl
          | false =>
              refine iff_of_true (fun entry member => ?_) ⟨rfl, fun _ => nofun⟩
              cases member
              exact ⟨_, rfl⟩

/-- The children of a level can be built when what it reads can be read, and what is below its
children can be built. -/
theorem trees_iff (level : Level) :
    (∀ entry ∈ level.entries env, ∃ tree, entry.tree = .ok tree) ↔
      level.Readable env ∧
        ∀ visit, level.Enters env visit → Loads (plan env visit.jconfig visit.jschema) := by
  have patterns : (∀ entry ∈ patternEntries env level.jconfig level.patterns,
      ∃ tree, entry.tree = .ok tree) ↔ ∀ item ∈ level.jconfig.items, ∀ pattern ∈ level.patterns,
        ∀ entry ∈ patternEntry env item.1 item.2 pattern, ∃ tree, entry.tree = .ok tree := by
    unfold patternEntries
    simp only [List.mem_flatMap, List.mem_filterMap, Option.mem_def]
    exact ⟨fun all item isItem pattern isPattern entry made =>
      all entry ⟨item, isItem, pattern, isPattern, made⟩,
      fun all entry ⟨item, isItem, pattern, isPattern, made⟩ =>
        all item isItem pattern isPattern entry made⟩
  unfold Level.entries
  rw [List.forall_mem_append, List.forall_mem_append, patterns, entriesFor_trees_iff,
    entriesFor_trees_iff]
  simp only [tree_keywordEntry, leafOf_eq_ok_iff, patternEntry_tree_iff, propertyEntry_tree_iff]
  constructor
  · rintro ⟨leaves, matching, reading⟩
    refine ⟨⟨leaves, ?_, ?_, ?_⟩, ?_⟩
    · exact fun property isProperty array value found =>
        (reading property isProperty value found).1 array
    · exact fun property isProperty notArray leaf value found =>
        (reading property isProperty value found).2.1 notArray leaf
    · exact fun pattern isPattern item isItem => (matching item isItem pattern isPattern).1
    · rintro _ (⟨isProperty, found, descends⟩ | ⟨isPattern, item, matched, descends⟩)
      · exact (reading _ isProperty _ found).2.2 descends
      · exact (matching _ item _ isPattern).2 matched descends
  · rintro ⟨readable, below⟩
    refine ⟨readable.keywords, ?_, ?_⟩
    · exact fun item isItem pattern isPattern =>
        ⟨readable.regexes pattern isPattern item isItem, fun matched descends =>
          below _ (.pattern isPattern isItem matched descends)⟩
    · exact fun property isProperty value found =>
        ⟨fun array => readable.items property isProperty array value found,
          fun notArray leaf => readable.leaves property isProperty notArray leaf value found,
          fun descends => below _ (.property isProperty found descends)⟩

end Trees

section Reached

/-- What holds at all that is reached holds at the start, and at all that is reached from the next. -/
theorem forall_reached_iff {α : Type*} {r : α → α → Prop} {property : α → Prop} {start : α} :
    (∀ last, ReflTransGen r start last → property last) ↔
      property start ∧ ∀ next, r start next → ∀ last, ReflTransGen r next last → property last := by
  constructor
  · exact fun all => ⟨all start .refl, fun next first last rest => all last (.head first rest)⟩
  · rintro ⟨here, later⟩ last reached
    obtain rfl | ⟨next, first, rest⟩ := reached.cases_head
    · exact here
    · exact later next first last rest

theorem loads_of_samePlan {steps : List PlanStep} {entries : List Entry}
    (same : SamePlan steps entries) :
    Loads steps ↔ ∀ entry ∈ entries, ∃ tree, entry.tree = .ok tree := by
  have begins : buildAll steps .empty = buildAll (entries.flatMap Entry.steps) (.composite []) :=
    same.builds []
  unfold Loads
  rw [begins]
  exact ⟨fun ⟨_, ran⟩ => (built_of_buildAll ran).trees, fun trees => exists_buildAll trees []⟩

/-- A level where the loader enters is below it in the schema. -/
theorem sizeOf_of_below {outer inner : Visit} (below : Below env outer inner) :
    sizeOf inner.jschema < sizeOf outer.jschema := by
  cases below with
  | property isProperty => exact Json.sizeOf_of_mem_table isProperty
  | pattern isPattern => exact Json.sizeOf_of_mem_table isPattern

/-- What is below a child can be built when all that the loader comes to there can be read. -/
theorem Visit.loads_iff (visit : Visit) (sorted : visit.jschema.Sorted)
    (document : visit.jconfig.Sorted)
    (plain : ∀ inner, ReflTransGen (Below env) visit inner → Plain inner) :
    Loads (plan env visit.jconfig visit.jschema) ↔
      ∀ inner, ReflTransGen (Below env) visit inner → inner.level.Readable env := by
  obtain ⟨here, later⟩ := forall_reached_iff.mp plain
  have isLevel : visit.level.Sorted := Level.sorted_of document sorted
  rw [loads_of_samePlan (samePlan_object sorted here.apart here.regular), forall_reached_iff]
  refine (trees_iff visit.level).trans (and_congr_right fun _ => forall_congr' fun inner => ?_)
  refine imp_congr_right fun below => ?_
  have innerSorted := Level.Enters.sorted below isLevel
  have smaller := sizeOf_of_below below
  exact inner.loads_iff innerSorted.1 innerSorted.2 (later inner below)
termination_by sizeOf visit.jschema

theorem samePlan_root {jconfig : Json} (sorted : env.jschema.Sorted)
    (ordinary : Ordinary env jconfig) :
    SamePlan (plan env jconfig (.object (env.jschema.table Keyword.PROPERTIES)))
      ((Level.root env jconfig).entries env) := by
  have noPatterns : patternEntries env jconfig [] = [] := by
    unfold patternEntries
    exact List.flatMap_eq_nil_iff.mpr fun _ _ => rfl
  have onlyProperties : (Level.root env jconfig).entries env =
      propertyEntries env jconfig (env.jschema.table Keyword.PROPERTIES) := by
    unfold Level.entries Level.root
    rw [noPatterns]
    rfl
  rw [onlyProperties]
  exact samePlan_properties sorted.table.2 ordinary.root

/-- The loader returns when all that it comes to can be read. -/
theorem loads_iff {jconfig : Json} (sorted : env.jschema.Sorted) (document : jconfig.Sorted)
    (ordinary : Ordinary env jconfig) :
    Loads (plan env jconfig (.object (env.jschema.table Keyword.PROPERTIES))) ↔
      (Level.root env jconfig).Readable env ∧
        ∀ visit, Visited env jconfig visit → visit.level.Readable env := by
  have isLevel : (Level.root env jconfig).Sorted := Level.sorted_root document sorted
  rw [loads_of_samePlan (samePlan_root sorted ordinary), trees_iff]
  have below : ∀ first, (Level.root env jconfig).Enters env first →
      (Loads (plan env first.jconfig first.jschema) ↔
        ∀ inner, ReflTransGen (Below env) first inner → inner.level.Readable env) :=
    fun first enters => by
      have innerSorted := enters.sorted isLevel
      exact first.loads_iff innerSorted.1 innerSorted.2 fun inner reached =>
        ordinary.visited inner ⟨first, enters, reached⟩
  refine and_congr_right fun _ => ⟨fun all visit visited => ?_, fun all first enters => ?_⟩
  · obtain ⟨first, enters, reached⟩ := visited
    exact (below first enters).mp (all first enters) visit reached
  · exact (below first enters).mpr fun inner reached => all inner ⟨first, enters, reached⟩

end Reached

end FlexConfig
