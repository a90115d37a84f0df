import FlexConfig.Schema.Entries
import Mathlib.Logic.Relation

/-! # Schema and document side by side

A level is one composite: what the document has there, and the keywords, properties and
patterns its schema object has. The child that stays of a name is that of the property of
this name, or else that of the last pattern that matches it, or else that of the keyword of
this name.
-/

namespace FlexConfig

open Procedure Schema PlanStep

/-- A composite the loader fills. -/
structure Level where
  jconfig : Json
  keywords : List (Str × Json)
  properties : List (Str × Json)
  patterns : List (Str × Json)

/-- How a child comes to be: through a keyword, a property or a pattern. -/
inductive Rule where
  | keyword (jschema : Json)
  | property (jschema : Json)
  | pattern (pattern : Str) (jschema : Json)

namespace Rule

def jschema : Rule → Json
  | .keyword jschema | .property jschema => jschema
  | .pattern _ jschema => jschema

/-- There is a plan for what is below the child. -/
def Descends : Rule → Prop
  | .keyword _ => False
  | .property jschema =>
    jschema.hasType Schema.TypeName.ARRAY = false ∧ isLeafSchema jschema = false
  | .pattern _ jschema => hasSubnodes jschema = true

/-- The entry of the child. -/
def entry (env : Env) (name : Str) (value : Json) : Rule → Entry
  | .keyword jschema => keywordEntry name jschema value
  | .property jschema => propertyEntry env name jschema value
  | .pattern _ jschema =>
    ⟨name, jschema, .ok .empty, if hasSubnodes jschema then some (plan env value jschema) else none⟩

theorem entry_name (env : Env) (name : Str) (value : Json) (rule : Rule) :
    (rule.entry env name value).name = name := by
  cases rule with
  | property jschema => exact propertyEntry_name env name jschema value
  | keyword | pattern => rfl

theorem entry_jschema (env : Env) (name : Str) (value : Json) (rule : Rule) :
    (rule.entry env name value).jschema = rule.jschema := by
  cases rule with
  | property jschema =>
      change (propertyEntry env name jschema value).jschema = jschema
      unfold propertyEntry
      split
      · rfl
      · split <;> rfl
  | keyword | pattern => rfl

theorem entry_inner {env : Env} {name : Str} {value : Json} {rule : Rule}
    (descends : rule.Descends) :
    (rule.entry env name value).first = .ok .empty ∧
      (rule.entry env name value).inner = some (plan env value rule.jschema) := by
  cases rule with
  | keyword => exact descends.elim
  | property jschema =>
      change (propertyEntry env name jschema value).first = _ ∧
        (propertyEntry env name jschema value).inner = _
      unfold propertyEntry
      rw [if_neg (Bool.eq_false_iff.mp descends.1), if_neg (Bool.eq_false_iff.mp descends.2)]
      exact ⟨rfl, rfl⟩
  | pattern _ jschema => exact ⟨rfl, if_pos descends⟩

end Rule

namespace Level

/-- The level of a schema object. -/
def of (jconfig jschema : Json) : Level :=
  ⟨jconfig, jschema.fields, jschema.table Keyword.PROPERTIES,
    jschema.table Keyword.PATTERN_PROPERTIES⟩

/-- The level of a whole document, at which the loader looks for the properties only. -/
def root (env : Env) (jconfig : Json) : Level :=
  ⟨jconfig, [], env.jschema.table Keyword.PROPERTIES, []⟩

def entries (env : Env) (level : Level) : List Entry :=
  keywordEntries level.jconfig level.keywords ++
    (patternEntries env level.jconfig level.patterns ++
      propertyEntries env level.jconfig level.properties)

/-- The last pattern that matches a name. -/
def lastMatch (env : Env) (name : Str) (patterns : List (Str × Json)) : Option (Str × Json) :=
  patterns.reverse.find? fun pattern => env.regexMatch pattern.1 name = some true

/-- The rule by which the child of a name stays. -/
def governing (env : Env) (level : Level) (name : Str) : Option Rule :=
  match Keyed.find name level.properties with
  | some jschema => some (.property jschema)
  | none =>
    ((lastMatch env name level.patterns).map fun pattern => .pattern pattern.1 pattern.2).or
      ((Keyed.find name level.keywords).map .keyword)

/-- The keywords, properties and patterns of the level are maps. -/
structure Sorted (level : Level) : Prop where
  jconfig : level.jconfig.Sorted
  keywords : (Keyed.keys level.keywords).Pairwise (· < ·)
  properties : (Keyed.keys level.properties).Pairwise (· < ·)
  property : ∀ entry ∈ level.properties, entry.2.Sorted
  pattern : ∀ entry ∈ level.patterns, entry.2.Sorted

theorem sorted_of {jconfig jschema : Json} (document : jconfig.Sorted) (sorted : jschema.Sorted) :
    (of jconfig jschema).Sorted :=
  ⟨document, sorted.fields, sorted.table.1, sorted.table.2, sorted.table.2⟩

theorem sorted_root {env : Env} {jconfig : Json} (document : jconfig.Sorted)
    (sorted : env.jschema.Sorted) : (root env jconfig).Sorted :=
  ⟨document, .nil, sorted.table.1, sorted.table.2, fun _ impossible => (by cases impossible)⟩

section Last

variable {env : Env} {level : Level} {name : Str} {value : Json}

theorem lastMatch_cons (pattern : Str × Json) (rest : List (Str × Json)) :
    lastMatch env name (pattern :: rest) =
      (lastMatch env name rest).or
        (if env.regexMatch pattern.1 name = some true then some pattern else none) := by
  unfold lastMatch
  rw [List.reverse_cons, List.find?_append]
  by_cases matches_ : env.regexMatch pattern.1 name = some true
  · simp [matches_]
  · simp [matches_]

/-- Among entries that are each made for a name, that of a name is the only one. -/
theorem lastOf_entriesFor {make : Str → Json → Json → Entry}
    (named : ∀ key jschema value, (make key jschema value).name = key) {jconfig : Json}
    {members : List (Str × Json)} (sorted : (Keyed.keys members).Pairwise (· < ·))
    (found : jconfig.find name = some value) :
    Entry.lastOf name (entriesFor make jconfig members) =
      (Keyed.find name members).map fun jschema => make name jschema value := by
  induction members with
  | nil => rfl
  | cons entry rest ih =>
      obtain ⟨key, jschema⟩ := entry
      obtain ⟨below, restSorted⟩ := List.pairwise_cons.mp sorted
      rw [entriesFor_cons, Keyed.find_cons]
      by_cases same : name = key
      · subst same
        have absent : Keyed.find name rest = none :=
          Keyed.find_eq_none_iff.mpr fun member => lt_irrefl name (below name member)
        rw [found, if_pos rfl]
        dsimp only
        rw [Entry.lastOf_cons, ih restSorted, absent, if_pos (named ..)]
        rfl
      · rw [if_neg same, ← ih restSorted]
        cases other : jconfig.find key with
        | none => rfl
        | some inner =>
            dsimp only
            rw [Entry.lastOf_cons, if_neg, Option.or_none]
            rw [named]
            exact Ne.symm same

theorem lastOf_entriesFor_of_absent {make : Str → Json → Json → Entry}
    (named : ∀ key jschema value, (make key jschema value).name = key) {jconfig : Json}
    {members : List (Str × Json)} (absent : jconfig.find name = none) :
    Entry.lastOf name (entriesFor make jconfig members) = none := by
  refine Entry.lastOf_eq_none_iff.mpr fun entry member => ?_
  obtain ⟨source, _, made⟩ := List.mem_filterMap.mp member
  obtain ⟨value, found, rfl⟩ := Option.map_eq_some_iff.mp made
  rw [named]
  rintro rfl
  cases absent.symm.trans found

theorem name_of_patternEntry {key : Str} {pattern : Str × Json} {entry : Entry}
    (made : patternEntry env key value pattern = some entry) : entry.name = key := by
  unfold patternEntry at made
  split at made
  · cases made
    rfl
  · cases made
  · cases made
    rfl

theorem lastOf_matching {patterns : List (Str × Json)}
    (regexes : ∀ pattern ∈ patterns, (env.regexMatch pattern.1 name).isSome = true) :
    Entry.lastOf name (patterns.filterMap (patternEntry env name value)) =
      (lastMatch env name patterns).map fun pattern =>
        Rule.entry env name value (.pattern pattern.1 pattern.2) := by
  induction patterns with
  | nil => rfl
  | cons pattern rest ih =>
      obtain ⟨here, others⟩ := List.forall_mem_cons.mp regexes
      obtain ⟨answer, matched⟩ := Option.isSome_iff_exists.mp here
      have regex : env.regex_match pattern.1 name = .ok answer := by rw [Env.regex_match, matched]; rfl
      rw [lastMatch_cons, matched]
      cases answer with
      | false =>
          have noEntry : patternEntry env name value pattern = none := by rw [patternEntry, regex]
          rw [List.filterMap_cons_none noEntry, ih others, if_neg (by simp), Option.or_none]
      | true =>
          have made : patternEntry env name value pattern =
              some (Rule.entry env name value (.pattern pattern.1 pattern.2)) := by
            rw [patternEntry, regex]
            rfl
          rw [List.filterMap_cons_some made, Entry.lastOf_cons, ih others,
            if_pos (Rule.entry_name ..), if_pos rfl, Option.map_or]
          rfl

theorem lastOf_patternEntries {members patterns : List (Str × Json)}
    (sorted : (Keyed.keys members).Pairwise (· < ·)) :
    Entry.lastOf name (patternEntries env (.object members) patterns) =
      (Keyed.find name members).bind fun value =>
        Entry.lastOf name (patterns.filterMap (patternEntry env name value)) := by
  have unfolded : ∀ members : List (Str × Json), patternEntries env (.object members) patterns =
      members.flatMap fun entry => patterns.filterMap (patternEntry env entry.1 entry.2) :=
    fun _ => rfl
  rw [unfolded]
  induction members with
  | nil => rfl
  | cons entry rest ih =>
      obtain ⟨key, inner⟩ := entry
      obtain ⟨below, restSorted⟩ := List.pairwise_cons.mp sorted
      rw [List.flatMap_cons, Entry.lastOf_append, ih restSorted, Keyed.find_cons]
      by_cases same : name = key
      · subst same
        have absent : Keyed.find name rest = none :=
          Keyed.find_eq_none_iff.mpr fun member => lt_irrefl name (below name member)
        rw [if_pos rfl, absent]
        rfl
      · have others : Entry.lastOf name (patterns.filterMap (patternEntry env key inner)) = none := by
          refine Entry.lastOf_eq_none_iff.mpr fun entry member => ?_
          obtain ⟨pattern, _, made⟩ := List.mem_filterMap.mp member
          rw [name_of_patternEntry made]
          exact Ne.symm same
        rw [if_neg same, others, Option.or_none]

/-- The patterns of a level are regular expressions. -/
def Regexes (env : Env) (level : Level) : Prop :=
  ∀ pattern ∈ level.patterns, ∀ entry ∈ level.jconfig.items,
    (env.regexMatch pattern.1 entry.1).isSome = true

/-- The entry that stays of a name is that of the rule governing it. -/
theorem lastOf_entries (sorted : level.Sorted) (regexes : level.Regexes env)
    (found : level.jconfig.find name = some value) :
    Entry.lastOf name (level.entries env) =
      (level.governing env name).map (Rule.entry env name value) := by
  obtain ⟨jconfig, keywords, properties, patterns⟩ := level
  have properties_ : Entry.lastOf name (propertyEntries env jconfig properties) = _ :=
    lastOf_entriesFor (propertyEntry_name env) sorted.properties found
  have keywords_ : Entry.lastOf name (keywordEntries jconfig keywords) = _ :=
    lastOf_entriesFor (fun _ _ _ => rfl) sorted.keywords found
  unfold entries governing
  rw [Entry.lastOf_append, Entry.lastOf_append, properties_, keywords_]
  cases isProperty : Keyed.find name properties with
  | some jschema => rfl
  | none =>
      cases jconfig with
      | object members =>
          have isMember : Keyed.find name members = some value := found
          have here : ∀ pattern ∈ patterns, (env.regexMatch pattern.1 name).isSome = true :=
            fun pattern member => regexes pattern member _ (Keyed.mem_of_find isMember)
          rw [lastOf_patternEntries sorted.jconfig.1, isMember, Option.bind_some,
            lastOf_matching here]
          simp [Option.map_map, Option.map_or, Function.comp_def, Rule.entry]
      | null | bool | number | string | array => cases found

/-- A name the document does not have gets a child only from a pattern that matches the key of
an item. -/
theorem lastOf_entries_eq_none_iff (regexes : level.Regexes env)
    (absent : level.jconfig.find name = none) :
    Entry.lastOf name (level.entries env) = none ↔ ∀ item ∈ level.jconfig.items, item.1 = name →
      ∀ pattern ∈ level.patterns, env.regexMatch pattern.1 name ≠ some true := by
  have noProperty : Entry.lastOf name (propertyEntries env level.jconfig level.properties) = none :=
    lastOf_entriesFor_of_absent (propertyEntry_name env) absent
  have noKeyword : Entry.lastOf name (keywordEntries level.jconfig level.keywords) = none :=
    lastOf_entriesFor_of_absent (fun _ _ _ => rfl) absent
  unfold entries
  rw [Entry.lastOf_append, Entry.lastOf_append, noProperty, noKeyword, Option.none_or,
    Option.or_none, Entry.lastOf_eq_none_iff]
  constructor
  · rintro unnamed item isItem rfl pattern isPattern matched
    have made : patternEntry env item.1 item.2 pattern =
        some (Rule.entry env item.1 item.2 (.pattern pattern.1 pattern.2)) := by
      rw [patternEntry, Env.regex_match, matched]
      rfl
    have member := List.mem_filterMap.mpr ⟨pattern, isPattern, made⟩
    exact unnamed _ (List.mem_flatMap.mpr ⟨item, isItem, member⟩) (Rule.entry_name ..)
  · intro unmatched entry member named
    obtain ⟨item, isItem, member⟩ := List.mem_flatMap.mp member
    obtain ⟨pattern, isPattern, made⟩ := List.mem_filterMap.mp member
    have key : item.1 = name := (name_of_patternEntry made).symm.trans named
    have other := unmatched item isItem key pattern isPattern
    obtain ⟨answer, matched⟩ := Option.isSome_iff_exists.mp (regexes pattern isPattern item isItem)
    rw [← key, matched] at other
    cases answer with
    | true => exact other rfl
    | false =>
        rw [patternEntry, Env.regex_match, matched] at made
        cases made

end Last

end Level

end FlexConfig
