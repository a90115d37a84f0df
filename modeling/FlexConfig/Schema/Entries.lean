import FlexConfig.Json.Members
import FlexConfig.Schema.Plan

/-! # The children the loader gives a composite

Where no name of the document is taken for a keyword, the plan for a composite is a list of
entries, each of which adds one child and builds what is inside it. The last entry of a
name is the one that stays.
-/

namespace FlexConfig

open Procedure Schema PlanStep

/-- One child that is added under a schema object, and what is built inside it. -/
structure Entry where
  name : Str
  jschema : Json
  first : Attempt Node
  inner : Option (List PlanStep)

namespace Entry

def steps (entry : Entry) : List PlanStep :=
  .add entry.name entry.jschema entry.first ::
    (entry.inner.map (PlanStep.inside entry.name)).toList

/-- The child with what is inside it. -/
def tree (entry : Entry) : Attempt Node := entry.first >>= buildAll (entry.inner.getD [])

/-- The last entry of a name. -/
def lastOf (name : Str) (entries : List Entry) : Option Entry :=
  entries.reverse.find? fun entry => entry.name = name

theorem lastOf_cons (name : Str) (entry : Entry) (rest : List Entry) :
    lastOf name (entry :: rest) =
      (lastOf name rest).or (if entry.name = name then some entry else none) := by
  unfold lastOf
  rw [List.reverse_cons, List.find?_append]
  by_cases same : entry.name = name
  · simp [same]
  · simp [same]

theorem lastOf_append (name : Str) (first second : List Entry) :
    lastOf name (first ++ second) = (lastOf name second).or (lastOf name first) := by
  unfold lastOf
  rw [List.reverse_append, List.find?_append]

theorem mem_of_lastOf {name : Str} {entries : List Entry} {entry : Entry}
    (last : lastOf name entries = some entry) : entry ∈ entries ∧ entry.name = name := by
  have named := List.find?_some (p := fun entry : Entry => decide (entry.name = name)) last
  exact ⟨List.mem_reverse.mp (List.mem_of_find?_eq_some last), of_decide_eq_true named⟩

theorem lastOf_eq_none_iff {name : Str} {entries : List Entry} :
    lastOf name entries = none ↔ ∀ entry ∈ entries, entry.name ≠ name := by
  unfold lastOf
  simp [List.find?_eq_none]

end Entry

section Build

variable {entries : List Entry}

theorem buildAll_steps (entry : Entry) (children : List (Str × Node)) :
    buildAll entry.steps (.composite children) =
      entry.tree.map fun tree => .composite (Keyed.insert entry.name tree children) := by
  obtain ⟨name, jschema, first, inner⟩ := entry
  unfold Entry.steps Entry.tree
  cases first with
  | error reason => rfl
  | ok node =>
      cases inner with
      | none => rfl
      | some steps =>
          have child : (Node.composite (Keyed.insert name node children)).findNode name = some node :=
            Keyed.find_insert_self name node children
          have reached : buildAll [.add name jschema (.ok node), .inside name steps]
              (.composite children) = buildAll [.inside name steps]
                (.composite (Keyed.insert name node children)) := rfl
          refine reached.trans ?_
          rw [buildAll, build, child, Option.getD_some]
          change _ = (buildAll steps node).map _
          cases buildAll steps node with
          | error reason => rfl
          | ok tree =>
              change Except.ok (Node.composite (Keyed.insert name tree (Keyed.insert name node children)))
                = Except.ok (Node.composite (Keyed.insert name tree children))
              rw [Keyed.insert_insert]

/-- What building entries has made of a composite. -/
structure Built (entries : List Entry) (children : List (Str × Node)) (node : Node) : Prop where
  composite : node.isLeaf = false
  trees : ∀ entry ∈ entries, ∃ tree, entry.tree = .ok tree
  finds : ∀ name, node.findNode name =
    match Entry.lastOf name entries with
    | some entry => entry.tree.toOption
    | none => Keyed.find name children

theorem built_of_buildAll {children : List (Str × Node)} {node : Node}
    (ran : buildAll (entries.flatMap Entry.steps) (.composite children) = .ok node) :
    Built entries children node := by
  induction entries generalizing children with
  | nil =>
      cases ran
      exact ⟨rfl, fun _ impossible => (by cases impossible), fun _ => rfl⟩
  | cons entry rest ih =>
      rw [List.flatMap_cons, buildAll_append, buildAll_steps] at ran
      cases tree : entry.tree with
      | error reason =>
          rw [tree] at ran
          cases ran
      | ok child =>
          rw [tree] at ran
          have inner := ih ran
          refine ⟨inner.composite, List.forall_mem_cons.mpr ⟨⟨child, tree⟩, inner.trees⟩, fun name => ?_⟩
          rw [inner.finds name, Entry.lastOf_cons]
          cases Entry.lastOf name rest with
          | some later => rfl
          | none =>
              by_cases same : entry.name = name
              · subst same
                rw [if_pos rfl]
                exact (Keyed.find_insert_self ..).trans (congrArg Except.toOption tree).symm
              · rw [if_neg same]
                exact Keyed.find_insert_of_ne (Ne.symm same) ..

theorem exists_buildAll (trees : ∀ entry ∈ entries, ∃ tree, entry.tree = .ok tree)
    (children : List (Str × Node)) :
    ∃ node, buildAll (entries.flatMap Entry.steps) (.composite children) = .ok node := by
  induction entries generalizing children with
  | nil => exact ⟨_, rfl⟩
  | cons entry rest ih =>
      obtain ⟨⟨tree, builds⟩, others⟩ := List.forall_mem_cons.mp trees
      rw [List.flatMap_cons, buildAll_append, buildAll_steps, builds]
      exact ih others _

end Build

section Created

theorem additionsOfAll_append (first second : List PlanStep) :
    additionsOfAll (first ++ second) = additionsOfAll first ++ additionsOfAll second := by
  induction first with
  | nil => rfl
  | cons step rest ih => rw [List.cons_append, additionsOfAll, ih, additionsOfAll, List.append_assoc]

mutual

theorem location_ne_nil : ∀ (step : PlanStep), ∀ added ∈ step.additions, added.1 ≠ []
  | .add _ _ _, _, member => by
      cases List.mem_singleton.mp member
      exact List.cons_ne_nil _ _
  | .inside _ _, _, member => by
      obtain ⟨_, _, rfl⟩ := List.mem_map.mp member
      exact List.cons_ne_nil _ _

theorem location_ne_nil_of_all : ∀ (steps : List PlanStep),
    ∀ added ∈ additionsOfAll steps, added.1 ≠ []
  | [], _, impossible => by cases impossible
  | step :: rest, added, member => by
      rcases List.mem_append.mp member with here | later
      · exact location_ne_nil step added here
      · exact location_ne_nil_of_all rest added later

end

theorem createdUnder_append (first second : List PlanStep) (location : Location) :
    createdUnder (first ++ second) location =
      (createdUnder second location).or (createdUnder first location) := by
  unfold createdUnder
  rw [additionsOfAll_append, List.reverse_append, List.find?_append, Option.map_or]

theorem createdUnder_of_absent {steps : List PlanStep} {location : Location}
    (absent : ∀ added ∈ additionsOfAll steps, added.1 ≠ location) :
    createdUnder steps location = none := by
  unfold createdUnder
  rw [Option.map_eq_none_iff, List.find?_eq_none]
  intro added member
  simpa using absent added (List.mem_reverse.mp member)

theorem createdUnder_inside (name : Str) (steps : List PlanStep) (location : Location) :
    createdUnder [.inside name steps] (name :: location) = createdUnder steps location := by
  have only : additionsOfAll [.inside name steps] =
      (additionsOfAll steps).map fun added => (name :: added.1, added.2) := List.append_nil _
  unfold createdUnder
  rw [only, ← List.map_reverse, List.find?_map, Option.map_map]
  congr 1
  refine congrArg (List.find? · _) (funext fun added => ?_)
  simp

/-- The names below which an entry adds nodes. -/
theorem head_of_steps {entry : Entry} {added : Location × Json}
    (member : added ∈ additionsOfAll entry.steps) : ∃ rest, added.1 = entry.name :: rest := by
  obtain ⟨name, jschema, first, inner⟩ := entry
  rcases List.mem_cons.mp member with rfl | member
  · exact ⟨[], rfl⟩
  · cases inner with
    | none => cases member
    | some steps =>
        rw [show additionsOfAll (Option.map (PlanStep.inside name) (some steps)).toList =
          (additionsOfAll steps).map fun added => (name :: added.1, added.2) from
            List.append_nil _] at member
        obtain ⟨inside, _, rfl⟩ := List.mem_map.mp member
        exact ⟨inside.1, rfl⟩

theorem head_of_entries {entries : List Entry} {added : Location × Json}
    (member : added ∈ additionsOfAll (entries.flatMap Entry.steps)) :
    ∃ entry ∈ entries, ∃ rest, added.1 = entry.name :: rest := by
  induction entries with
  | nil => cases member
  | cons entry rest ih =>
      rw [List.flatMap_cons, additionsOfAll_append] at member
      rcases List.mem_append.mp member with here | later
      · exact ⟨entry, List.mem_cons_self, head_of_steps here⟩
      · obtain ⟨other, inside, head⟩ := ih later
        exact ⟨other, List.mem_cons_of_mem _ inside, head⟩

/-- The child of an entry is created under the entry's schema object. -/
theorem createdUnder_steps_self (entry : Entry) :
    createdUnder entry.steps [entry.name] = some entry.jschema := by
  obtain ⟨name, jschema, first, inner⟩ := entry
  have added : createdUnder [.add name jschema first] [name] = some jschema := by
    simp [createdUnder, additionsOfAll, additions]
  have parts : Entry.steps ⟨name, jschema, first, inner⟩ =
      [.add name jschema first] ++ (inner.map (PlanStep.inside name)).toList := rfl
  rw [parts, createdUnder_append, added]
  cases inner with
  | none => rfl
  | some steps =>
      have outside : createdUnder steps [] = none :=
        createdUnder_of_absent (location_ne_nil_of_all steps)
      exact congrArg (Option.or · _) ((createdUnder_inside name steps []).trans outside)

/-- What is inside the child is created as its own plan says. -/
theorem createdUnder_steps_inner {entry : Entry} {steps : List PlanStep}
    (inner : entry.inner = some steps) {location : Location} {creator : Json}
    (created : createdUnder steps location = some creator) :
    createdUnder entry.steps (entry.name :: location) = some creator := by
  obtain ⟨name, jschema, first, _⟩ := entry
  cases inner
  have parts : Entry.steps ⟨name, jschema, first, some steps⟩ =
      [.add name jschema first] ++ [.inside name steps] := rfl
  rw [parts, createdUnder_append, createdUnder_inside, created]
  rfl

/-- A child is created under the schema object of the last entry of its name. -/
theorem createdUnder_child {entries : List Entry} {name : Str} {entry : Entry}
    (last : Entry.lastOf name entries = some entry) (location : Location) {creator : Json}
    (created : createdUnder entry.steps (name :: location) = some creator) :
    createdUnder (entries.flatMap Entry.steps) (name :: location) = some creator := by
  induction entries with
  | nil => cases last
  | cons first rest ih =>
      rw [List.flatMap_cons, createdUnder_append]
      rw [Entry.lastOf_cons] at last
      cases later : Entry.lastOf name rest with
      | some other =>
          rw [later] at last
          cases last
          rw [ih later]
          rfl
      | none =>
          rw [later, Option.none_or] at last
          have absent : createdUnder (rest.flatMap Entry.steps) (name :: location) = none := by
            refine createdUnder_of_absent fun added member same => ?_
            obtain ⟨other, inside, head⟩ := head_of_entries member
            obtain ⟨below, starts⟩ := head
            rw [same] at starts
            cases starts
            exact Entry.lastOf_eq_none_iff.mp later other inside rfl
          split at last
          · cases last
            rw [absent, created]
            rfl
          · cases last

end Created

section Level

variable (env : Env)

/-- What is added for a property of the document. -/
def propertyEntry (name : Str) (jschema value : Json) : Entry :=
  if jschema.hasType Schema.TypeName.ARRAY then
    ⟨name, jschema, .ok .empty, some (itemsPlan jschema value.values)⟩
  else if isLeafSchema jschema then ⟨name, jschema, leafOf value, none⟩
  else ⟨name, jschema, .ok .empty, some (plan env value jschema)⟩

/-- What is added for a key of the document that a pattern matches. A pattern that is none
raises. -/
def patternEntry (key : Str) (value : Json) (pattern : Str × Json) : Option Entry :=
  match env.regex_match pattern.1 key with
  | .error reason => some ⟨key, pattern.2, .error reason, none⟩
  | .ok false => none
  | .ok true =>
    some ⟨key, pattern.2, .ok .empty,
      if hasSubnodes pattern.2 then some (plan env value pattern.2) else none⟩

theorem propertyEntry_name (name : Str) (jschema value : Json) :
    (propertyEntry env name jschema value).name = name := by
  unfold propertyEntry
  split
  · rfl
  · split <;> rfl

/-- What is added for the names of the document that are among some members of the schema. -/
def entriesFor (make : Str → Json → Json → Entry) (jconfig : Json) (members : List (Str × Json)) :
    List Entry :=
  members.filterMap fun entry => (jconfig.find entry.1).map (make entry.1 entry.2)

abbrev propertyEntries : Json → List (Str × Json) → List Entry := entriesFor (propertyEntry env)

def patternEntries (jconfig : Json) (patterns : List (Str × Json)) : List Entry :=
  jconfig.items.flatMap fun entry => patterns.filterMap (patternEntry env entry.1 entry.2)

/-- What is added for a name of the document that is a keyword of its schema object: a leaf. -/
def keywordEntry (name : Str) (keyword value : Json) : Entry := ⟨name, keyword, leafOf value, none⟩

abbrev keywordEntries : Json → List (Str × Json) → List Entry := entriesFor keywordEntry

/-- What is added to the composite of a schema object: its keywords come first, then the
patterns, and the properties last. -/
def objectEntries (jconfig jschema : Json) : List Entry :=
  keywordEntries jconfig jschema.fields ++
    (patternEntries env jconfig (jschema.table Keyword.PATTERN_PROPERTIES) ++
      propertyEntries env jconfig (jschema.table Keyword.PROPERTIES))

/-- No name of the document is a keyword of the schema object. -/
def Disjoint (jconfig jschema : Json) : Prop :=
  ∀ name, (jconfig.find name).isSome → jschema.find name = none

/-- A keyword of the schema object that is a name of the document is taken for a leaf. -/
def Apart (jconfig jschema : Json) : Prop :=
  ∀ name, (jconfig.find name).isSome → ∀ keyword, jschema.find name = some keyword →
    keyword.hasType Schema.TypeName.ARRAY = false ∧ isLeafSchema keyword = true

/-- No property has the name of a keyword under which the loader descends, and an array has no
name that is a keyword of its schema object, nor does that have nodes below it. -/
structure Regular (jconfig : Json) (properties : List (Str × Json)) : Prop where
  unreserved : Keyed.find Keyword.PROPERTIES properties = none ∧
    Keyed.find Keyword.PATTERN_PROPERTIES properties = none
  arrays : ∀ entry ∈ properties, entry.2.hasType Schema.TypeName.ARRAY = true →
    ∀ value, jconfig.find entry.1 = some value → Disjoint value entry.2 ∧ hasSubnodes entry.2 = false

variable {env} {jconfig jschema : Json}

theorem entriesFor_cons {make : Str → Json → Json → Entry} (name : Str) (jschema : Json)
    (rest : List (Str × Json)) :
    entriesFor make jconfig ((name, jschema) :: rest) =
      match jconfig.find name with
      | none => entriesFor make jconfig rest
      | some found => make name jschema found :: entriesFor make jconfig rest := by
  unfold entriesFor
  cases found : jconfig.find name with
  | none => exact List.filterMap_cons_none (by rw [found]; rfl)
  | some inner => exact List.filterMap_cons_some (by rw [found]; rfl)

/-- The first loop over keywords that are taken for leaves adds their entries. -/
theorem membersPlan_of_leaves {members : List (Str × Json)} (cursor : Option Str)
    (leaves : ∀ entry ∈ members, (jconfig.find entry.1).isSome →
      entry.2.hasType Schema.TypeName.ARRAY = false ∧ isLeafSchema entry.2 = true) :
    membersPlan env jconfig cursor members =
        (keywordEntries jconfig members).flatMap Entry.steps ∧
      cursorAfter jconfig cursor members = cursor := by
  induction members with
  | nil => exact ⟨by rw [membersPlan]; rfl, rfl⟩
  | cons entry rest ih =>
      obtain ⟨key, keyword⟩ := entry
      obtain ⟨here, others⟩ := List.forall_mem_cons.mp leaves
      obtain ⟨planned, kept⟩ := ih others
      rw [membersPlan, cursorAfter, keywordEntries, entriesFor_cons]
      cases found : jconfig.find key with
      | none =>
          rw [if_neg (by simp)]
          exact ⟨planned, kept⟩
      | some value =>
          obtain ⟨notArray, isLeaf⟩ := here (Option.isSome_iff_exists.mpr ⟨value, found⟩)
          dsimp only at notArray isLeaf ⊢
          rw [if_neg (Bool.eq_false_iff.mp notArray), if_pos isLeaf, if_neg (by simp [isLeaf]), planned]
          exact ⟨rfl, kept⟩

theorem keywordsPlan_of_absent {members : List (Str × Json)} (cursor : Option Str)
    (unreserved : Keyed.find Keyword.PROPERTIES members = none ∧
      Keyed.find Keyword.PATTERN_PROPERTIES members = none) :
    keywordsPlan env jconfig cursor members = [] := by
  rw [Keyed.find_eq_none_iff, Keyed.find_eq_none_iff] at unreserved
  induction members with
  | nil => rw [keywordsPlan]
  | cons entry rest ih =>
      obtain ⟨key, value⟩ := entry
      simp only [Keyed.keys, List.map_cons, List.mem_cons, not_or] at unreserved
      rw [keywordsPlan, if_neg (Ne.symm unreserved.2.1), if_neg (Ne.symm unreserved.1.1)]
      exact ih ⟨unreserved.1.2, unreserved.2.2⟩

theorem leaves_of_apart {members : List (Str × Json)} (sorted : (Json.object members).Sorted)
    (apart : Apart jconfig (.object members)) :
    ∀ entry ∈ members, (jconfig.find entry.1).isSome →
      entry.2.hasType Schema.TypeName.ARRAY = false ∧ isLeafSchema entry.2 = true :=
  fun entry member present =>
    apart entry.1 present entry.2 ((Keyed.find_eq_some_iff sorted.1).mpr member)

theorem Disjoint.apart (disjoint : Disjoint jconfig jschema) : Apart jconfig jschema :=
  fun name present keyword found => by cases (disjoint name present).symm.trans found

theorem Disjoint.keywordEntries (disjoint : Disjoint jconfig jschema) :
    keywordEntries jconfig jschema.fields = [] := by
  cases jschema with
  | object members =>
      refine List.filterMap_eq_nil_iff.mpr fun entry member => ?_
      cases found : jconfig.find entry.1 with
      | none => rfl
      | some value =>
          have noKeyword := disjoint entry.1 (Option.isSome_iff_exists.mpr ⟨value, found⟩)
          exact (Keyed.find_eq_none_iff.mp noKeyword (List.mem_map_of_mem member)).elim
  | null | bool | number | string | array => rfl

/-- The second loop finds the patterns before the properties. -/
theorem keywordsPlan_of_sorted {members : List (Str × Json)}
    (sorted : (Keyed.keys members).Pairwise (· < ·)) :
    keywordsPlan env jconfig none members =
      ((Keyed.find Keyword.PATTERN_PROPERTIES members).map (patternsPlan env jconfig)).getD [] ++
        ((Keyed.find Keyword.PROPERTIES members).map (plan env jconfig)).getD [] := by
  have order : Keyword.PATTERN_PROPERTIES < Keyword.PROPERTIES := by decide
  induction members with
  | nil => rw [keywordsPlan]; rfl
  | cons entry rest ih =>
      obtain ⟨key, value⟩ := entry
      obtain ⟨below, restSorted⟩ := List.pairwise_cons.mp sorted
      have behind : ∀ {name : Str}, ¬ key < name → Keyed.find name rest = none := fun notBehind =>
        Keyed.find_eq_none_iff.mpr fun member => notBehind (below _ member)
      rw [keywordsPlan, ih restSorted, Keyed.find_cons, Keyed.find_cons]
      by_cases patterns : key = Keyword.PATTERN_PROPERTIES
      · subst patterns
        rw [if_pos rfl, if_pos rfl, behind (lt_irrefl _), if_neg order.ne']
        rfl
      · rw [if_neg patterns, if_neg (Ne.symm patterns)]
        by_cases properties : key = Keyword.PROPERTIES
        · subst properties
          rw [if_pos rfl, if_pos rfl, behind order.asymm, behind (lt_irrefl _)]
          exact List.append_nil _
        · rw [if_neg properties, if_neg (Ne.symm properties)]
          rfl

/-- A plan that is made for the entries of an object only is made for the table of a keyword. -/
theorem plan_table (planOf : Json → List PlanStep) (jschema : Json) (keyword : Str)
    (others : ∀ value, value.kind ≠ .object → planOf value = [])
    (empty : planOf (.object []) = []) :
    ((jschema.find keyword).map planOf).getD [] = planOf (.object (jschema.table keyword)) := by
  unfold Json.table
  cases jschema.find keyword with
  | none => exact empty.symm
  | some value =>
      cases value with
      | object entries => rfl
      | null | bool | number | string | array => exact (others _ (by simp [Json.kind])).trans empty.symm

theorem plan_of_other {value : Json} (other : value.kind ≠ .object) :
    plan env jconfig value = [] ∧ patternsPlan env jconfig value = [] := by
  cases value with
  | object => exact absurd rfl other
  | null | bool | number | string | array => exact ⟨by simp [plan], by simp [patternsPlan]⟩

theorem plan_of_empty :
    plan env jconfig (.object []) = [] ∧ patternsPlan env jconfig (.object []) = [] := by
  refine ⟨by rw [plan, membersPlan, keywordsPlan]; rfl, ?_⟩
  rw [patternsPlan]
  exact List.flatMap_eq_nil_iff.mpr fun _ _ => by rw [matchingPlan]

/-- The plan for a composite where a keyword is taken for a leaf at most. -/
theorem plan_of_apart (sorted : jschema.Sorted) (apart : Apart jconfig jschema) :
    plan env jconfig jschema = (keywordEntries jconfig jschema.fields).flatMap Entry.steps ++
      (patternsPlan env jconfig (.object (jschema.table Keyword.PATTERN_PROPERTIES)) ++
        plan env jconfig (.object (jschema.table Keyword.PROPERTIES))) := by
  rw [← plan_table _ _ _ (fun _ other => (plan_of_other other).2) plan_of_empty.2,
    ← plan_table _ _ _ (fun _ other => (plan_of_other other).1) plan_of_empty.1]
  cases jschema with
  | object members =>
      obtain ⟨planned, noCursor⟩ := membersPlan_of_leaves none (leaves_of_apart sorted apart)
      rw [plan, planned, noCursor, keywordsPlan_of_sorted sorted.1]
      rfl
  | null | bool | number | string | array => exact (plan_of_other (by simp [Json.kind])).1

/-- A schema object with no nodes below it has no plan of its own. -/
theorem plan_of_bare (sorted : jschema.Sorted) (disjoint : Disjoint jconfig jschema)
    (bare : hasSubnodes jschema = false) : plan env jconfig jschema = [] := by
  obtain ⟨noProperties, noPatterns⟩ := Bool.or_eq_false_iff.mp bare
  have noTable : ∀ {keyword : Str}, (jschema.find keyword).isSome = false →
      jschema.table keyword = [] := by
    intro keyword absent
    rw [Json.table, Option.not_isSome_iff_eq_none.mp (Bool.eq_false_iff.mp absent)]
  rw [plan_of_apart sorted disjoint.apart, disjoint.keywordEntries, noTable noProperties,
    noTable noPatterns, plan_of_empty.1, plan_of_empty.2]
  rfl

section Properties

variable {properties : List (Str × Json)}

/-- The first loop adds an entry, goes inside the cursor for nothing where the entry is an
array, and goes on. -/
theorem membersPlan_cons {key : Str} {value : Json} {rest : List (Str × Json)}
    (cursor : Option Str) (found : jconfig.find key = some value) (sorted : jschema.Sorted)
    (array : jschema.hasType Schema.TypeName.ARRAY = true →
      Disjoint value jschema ∧ hasSubnodes jschema = false) :
    ∃ skipped next, membersPlan env jconfig cursor ((key, jschema) :: rest) =
        (propertyEntry env key jschema value).steps ++
          (skipped ++ membersPlan env jconfig next rest) ∧
      (skipped = [] ∨ ∃ name ∈ cursor, skipped = [.inside name []]) ∧
      (next = cursor ∨ next = some key) := by
  rw [membersPlan, found]
  unfold propertyEntry
  dsimp only
  by_cases isArray : jschema.hasType Schema.TypeName.ARRAY = true
  · obtain ⟨apart, bare⟩ := array isArray
    rw [if_pos isArray, if_pos isArray, plan_of_bare sorted apart bare]
    refine ⟨beneath cursor [], cursor, rfl, ?_, Or.inl rfl⟩
    cases cursor with
    | none => exact Or.inl rfl
    | some name => exact Or.inr ⟨name, rfl, rfl⟩
  · rw [if_neg isArray, if_neg isArray]
    by_cases isLeaf : isLeafSchema jschema = true
    · rw [if_pos isLeaf, if_pos isLeaf]
      exact ⟨[], cursor, rfl, Or.inl rfl, Or.inl rfl⟩
    · rw [if_neg isLeaf, if_neg isLeaf]
      exact ⟨[], some key, rfl, Or.inl rfl, Or.inr rfl⟩

theorem buildAll_skipped {cursor : Option Str} {skipped : List PlanStep}
    {children : List (Str × Node)} (kept : ∀ name ∈ cursor, Keyed.Kept name children)
    (nothing : skipped = [] ∨ ∃ name ∈ cursor, skipped = [.inside name []]) :
    buildAll skipped (.composite children) = .ok (.composite children) := by
  rcases nothing with rfl | ⟨name, isCursor, rfl⟩
  · rfl
  · obtain ⟨value, found, stays⟩ := kept name isCursor
    have child : (Node.composite children).findNode name = some value := found
    rw [buildAll, build, child]
    exact congrArg (fun children => Except.ok (Node.composite children)) stays

/-- The first loop adds the entries of the properties. -/
theorem buildAll_membersPlan (sorted : ∀ entry ∈ properties, entry.2.Sorted)
    (arrays : ∀ entry ∈ properties, entry.2.hasType Schema.TypeName.ARRAY = true →
      ∀ value, jconfig.find entry.1 = some value → Disjoint value entry.2 ∧ hasSubnodes entry.2 = false)
    {cursor : Option Str} {children : List (Str × Node)}
    (kept : ∀ name ∈ cursor, Keyed.Kept name children) :
    buildAll (membersPlan env jconfig cursor properties) (.composite children) =
      buildAll ((propertyEntries env jconfig properties).flatMap Entry.steps)
        (.composite children) := by
  induction properties generalizing cursor children with
  | nil => rw [membersPlan]; rfl
  | cons entry rest ih =>
      obtain ⟨key, jschema⟩ := entry
      obtain ⟨sortedHere, sortedRest⟩ := List.forall_mem_cons.mp sorted
      obtain ⟨arrayHere, arrayRest⟩ := List.forall_mem_cons.mp arrays
      rw [propertyEntries, entriesFor_cons]
      cases found : jconfig.find key with
      | none =>
          rw [membersPlan, found]
          exact ih sortedRest arrayRest kept
      | some value =>
          obtain ⟨skipped, next, planned, nothing, moved⟩ := membersPlan_cons cursor found sortedHere
            fun isArray => arrayHere isArray value found
          rw [planned, buildAll_append, List.flatMap_cons, buildAll_append, buildAll_steps]
          cases built : (propertyEntry env key jschema value).tree with
          | error reason => rfl
          | ok tree =>
              have keptNext : ∀ name ∈ cursor,
                  Keyed.Kept name (Keyed.insert (propertyEntry env key jschema value).name tree
                    children) := fun name isCursor => (kept name isCursor).insert _ tree
              change buildAll (skipped ++ _) (.composite _) = _
              rw [buildAll_append, buildAll_skipped keptNext nothing]
              refine ih sortedRest arrayRest ?_
              rcases moved with rfl | rfl
              · exact keptNext
              · intro name isKey
                cases isKey
                have named := propertyEntry_name env key jschema value
                rw [named]
                exact Keyed.kept_insert_self key tree children

theorem additionsOfAll_membersPlan (sorted : ∀ entry ∈ properties, entry.2.Sorted)
    (arrays : ∀ entry ∈ properties, entry.2.hasType Schema.TypeName.ARRAY = true →
      ∀ value, jconfig.find entry.1 = some value → Disjoint value entry.2 ∧ hasSubnodes entry.2 = false)
    (cursor : Option Str) :
    additionsOfAll (membersPlan env jconfig cursor properties) =
      additionsOfAll ((propertyEntries env jconfig properties).flatMap Entry.steps) := by
  induction properties generalizing cursor with
  | nil => rw [membersPlan]; rfl
  | cons entry rest ih =>
      obtain ⟨key, jschema⟩ := entry
      obtain ⟨sortedHere, sortedRest⟩ := List.forall_mem_cons.mp sorted
      obtain ⟨arrayHere, arrayRest⟩ := List.forall_mem_cons.mp arrays
      rw [propertyEntries, entriesFor_cons]
      cases found : jconfig.find key with
      | none =>
          rw [membersPlan, found]
          exact ih sortedRest arrayRest cursor
      | some value =>
          obtain ⟨skipped, next, planned, nothing, _⟩ := membersPlan_cons cursor found sortedHere
            fun isArray => arrayHere isArray value found
          have none : additionsOfAll skipped = [] := by
            rcases nothing with rfl | ⟨name, _, rfl⟩
            · rfl
            · rfl
          rw [planned, List.flatMap_cons, additionsOfAll_append, additionsOfAll_append,
            additionsOfAll_append, none, ih sortedRest arrayRest next]
          rfl

end Properties

theorem matchingPlan_eq (key : Str) (value : Json) (patterns : List (Str × Json)) :
    matchingPlan env key value patterns =
      (patterns.filterMap (patternEntry env key value)).flatMap Entry.steps := by
  induction patterns with
  | nil => rw [matchingPlan]; rfl
  | cons pattern rest ih =>
      obtain ⟨text, jschema⟩ := pattern
      rw [matchingPlan, ih]
      cases matched : env.regex_match text key with
      | error reason =>
          have entry : patternEntry env key value (text, jschema) =
              some ⟨key, jschema, .error reason, none⟩ := by rw [patternEntry, matched]
          rw [List.filterMap_cons_some entry]
          rfl
      | ok answer =>
          cases answer with
          | false =>
              have noEntry : patternEntry env key value (text, jschema) = none := by
                rw [patternEntry, matched]
              rw [List.filterMap_cons_none noEntry]
              rfl
          | true =>
              have entry : patternEntry env key value (text, jschema) =
                  some ⟨key, jschema, .ok .empty,
                    if hasSubnodes jschema then some (plan env value jschema) else none⟩ := by
                rw [patternEntry, matched]
              rw [List.filterMap_cons_some entry, List.flatMap_cons]
              dsimp only
              by_cases subnodes : hasSubnodes jschema = true
              · rw [if_pos subnodes, if_pos subnodes]
                rfl
              · rw [if_neg subnodes, if_neg subnodes]
                rfl

theorem patternsPlan_eq (jconfig : Json) (patterns : List (Str × Json)) :
    patternsPlan env jconfig (.object patterns) =
      (patternEntries env jconfig patterns).flatMap Entry.steps := by
  rw [patternsPlan, patternEntries, List.flatMap_assoc]
  exact List.flatMap_congr fun entry _ => matchingPlan_eq entry.1 entry.2 patterns

/-- A plan and a list of entries build the same, and add the same nodes. -/
structure SamePlan (steps : List PlanStep) (entries : List Entry) : Prop where
  builds : ∀ children, buildAll steps (.composite children) =
    buildAll (entries.flatMap Entry.steps) (.composite children)
  adds : additionsOfAll steps = additionsOfAll (entries.flatMap Entry.steps)

/-- The plan for the properties of a regular document are their entries. -/
theorem samePlan_properties {properties : List (Str × Json)}
    (sorted : ∀ entry ∈ properties, entry.2.Sorted) (regular : Regular jconfig properties) :
    SamePlan (plan env jconfig (.object properties)) (propertyEntries env jconfig properties) := by
  have onlyMembers : plan env jconfig (.object properties) =
      membersPlan env jconfig none properties := by
    rw [plan, keywordsPlan_of_absent _ regular.unreserved, List.append_nil]
  rw [onlyMembers]
  exact ⟨fun children => buildAll_membersPlan sorted regular.arrays nofun,
    additionsOfAll_membersPlan sorted regular.arrays none⟩

/-- The plan for a composite is its entries, where a keyword is taken for a leaf at most. -/
theorem samePlan_object (sorted : jschema.Sorted) (apart : Apart jconfig jschema)
    (regular : Regular jconfig (jschema.table Keyword.PROPERTIES)) :
    SamePlan (plan env jconfig jschema) (objectEntries env jconfig jschema) := by
  have properties : SamePlan (plan env jconfig _) _ :=
    samePlan_properties sorted.table.2 regular
  have joined : objectEntries env jconfig jschema =
      (keywordEntries jconfig jschema.fields ++
        patternEntries env jconfig (jschema.table Keyword.PATTERN_PROPERTIES)) ++
          propertyEntries env jconfig (jschema.table Keyword.PROPERTIES) :=
    (List.append_assoc ..).symm
  rw [plan_of_apart sorted apart, patternsPlan_eq, ← List.append_assoc, ← List.flatMap_append, joined]
  generalize keywordEntries jconfig jschema.fields ++
    patternEntries env jconfig (jschema.table Keyword.PATTERN_PROPERTIES) = first
  constructor
  · intro children
    rw [List.flatMap_append, buildAll_append, buildAll_append]
    cases ran : buildAll (first.flatMap Entry.steps) (.composite children) with
    | error reason => rfl
    | ok node =>
        cases node with
        | leaf value => cases (built_of_buildAll ran).composite
        | composite inner => exact properties.builds inner
  · rw [additionsOfAll_append, properties.adds, List.flatMap_append, additionsOfAll_append]

end Level

end FlexConfig
