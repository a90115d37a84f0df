import FlexConfig.Schema.Lookup

/-! # The two walks over the schema

`getSchemaByXPath` and `GetJsonSchemaByXPath` go the same way through the schema, but the first
also turns the attributes of every schema object on the way into texts, and answers with a node
where the second answers with the schema object, which may be null. So they agree along the paths
on which every attribute is a text or an array of texts and the last schema object is something.
-/

namespace FlexConfig

open Procedure Schema

section Attributes

/-- The values of an attribute: those of an array, or the one that stands there. -/
def Json.asSet : Json → List Json
  | .array elements => elements
  | value => [value]

/-- The attributes of one member of a schema object with their values: the members of an action
are attributes of their own. -/
def memberEntries (key : Str) (value : Json) : List (Str × Json) :=
  if key ∉ Config.PropertyName.SUPPORTED_ATTRIBUTES then []
  else if key = Config.PropertyName.ACTION then
    value.items.map fun entry => (Config.PropertyName.ACTION ++ '-' :: entry.1, entry.2)
  else value.asSet.map fun element => (key, element)

/-- The attributes of a schema object with their values. -/
def Json.attributeEntries (schema : Json) : List (Str × Json) :=
  schema.items.flatMap fun member => memberEntries member.1 member.2

/-- The attribute values of a schema object are texts. -/
def Json.Textual (schema : Json) : Prop :=
  ∀ entry ∈ schema.attributeEntries, ∃ text, entry.2 = .string text

/-- A schema node has exactly the values that a schema object has for an attribute. -/
def SchemaNode.HasValuesOf (node : SchemaNode) (schema : Json) : Prop :=
  ∀ name ∈ Config.PropertyName.SUPPORTED_ATTRIBUTES, ∀ value,
    (name, value) ∈ schema.attributeEntries ↔ ∃ text ∈ node.FindAttr name, value = .string text

/-- The text of one value of an attribute. -/
def attributeText (entry : Str × Json) : Attempt (Str × Str) := do
  let text ← entry.2.getString
  return (entry.1, text)

theorem attributeText_eq_ok_iff {entry : Str × Json} {name text : Str} :
    attributeText entry = .ok (name, text) ↔ entry = (name, .string text) := by
  unfold attributeText
  rw [except_bind_eq_ok]
  constructor
  · intro texts
    obtain ⟨other, read, finished⟩ := texts
    cases finished
    rw [← getString_eq_ok_iff.mp read]
  · intro same
    subst same
    exact ⟨text, rfl, rfl⟩

/-- The attributes a member gives are the texts of its values. -/
theorem memberAttributes_eq (key : Str) (value : Json) :
    memberAttributes key value = (memberEntries key value).mapM attributeText := by
  unfold memberAttributes memberEntries
  split
  · rfl
  · split
    · rw [List.mapM_map]
      rfl
    · cases value with
      | array elements =>
          change elements.mapM _ = _
          rw [Json.asSet, List.mapM_map]
          rfl
      | string text => rfl
      | null | bool | number | object => rfl

theorem mem_of_loadSchemaAttributes {schema : Json} {attributes : List (Str × Str)}
    (loaded : loadSchemaAttributes schema = .ok attributes) {name text : Str} :
    (name, text) ∈ attributes ↔ (name, .string text) ∈ schema.attributeEntries := by
  obtain ⟨lists, mapped, finished⟩ := except_bind_eq_ok.mp loaded
  cases finished
  unfold Json.attributeEntries
  rw [List.mem_flatten, List.mem_flatMap]
  constructor
  · intro given
    obtain ⟨list, listed, member⟩ := given
    obtain ⟨entry, present, texts⟩ := (mem_of_mapM mapped).mp listed
    rw [memberAttributes_eq] at texts
    obtain ⟨source, sourced, text⟩ := (mem_of_mapM texts).mp member
    rw [attributeText_eq_ok_iff] at text
    exact ⟨entry, present, text ▸ sourced⟩
  · intro given
    obtain ⟨entry, present, sourced⟩ := given
    obtain ⟨list, texts⟩ := exists_mapM_eq_ok_iff.mp ⟨lists, mapped⟩ entry present
    refine ⟨list, (mem_of_mapM mapped).mpr ⟨entry, present, texts⟩, ?_⟩
    rw [memberAttributes_eq] at texts
    exact (mem_of_mapM texts).mpr ⟨_, sourced, attributeText_eq_ok_iff.mpr rfl⟩

/-- The attributes of a schema object can be loaded exactly when they are texts. -/
theorem exists_loadSchemaAttributes_iff {schema : Json} :
    (∃ attributes, loadSchemaAttributes schema = .ok attributes) ↔ schema.Textual := by
  have lists : (∃ attributes, loadSchemaAttributes schema = .ok attributes) ↔
      ∃ lists, (schema.items.mapM fun entry => memberAttributes entry.1 entry.2) = .ok lists := by
    constructor
    · intro loads
      obtain ⟨attributes, loaded⟩ := loads
      obtain ⟨lists, mapped, _⟩ := except_bind_eq_ok.mp loaded
      exact ⟨lists, mapped⟩
    · intro maps
      obtain ⟨lists, mapped⟩ := maps
      exact ⟨lists.flatten, except_bind_eq_ok.mpr ⟨lists, mapped, rfl⟩⟩
  rw [lists, exists_mapM_eq_ok_iff]
  unfold Json.Textual Json.attributeEntries
  rw [List.forall_mem_flatMap]
  refine forall₂_congr fun member _ => ?_
  rw [memberAttributes_eq, exists_mapM_eq_ok_iff]
  refine forall₂_congr fun entry _ => ?_
  constructor
  · intro reads
    obtain ⟨pair, read⟩ := reads
    exact ⟨pair.2, congrArg Prod.snd (attributeText_eq_ok_iff.mp read)⟩
  · intro text
    obtain ⟨text, same⟩ := text
    exact ⟨(entry.1, text), attributeText_eq_ok_iff.mpr (Prod.ext rfl same)⟩

theorem mem_FindAttr {node : SchemaNode} {name text : Str} :
    text ∈ node.FindAttr name ↔ (name, text) ∈ node.attributes := by
  unfold SchemaNode.FindAttr
  rw [List.mem_reverse, List.mem_map]
  constructor
  · intro found
    obtain ⟨entry, kept, same⟩ := found
    obtain ⟨member, named⟩ := List.mem_filter.mp kept
    rw [← same, ← of_decide_eq_true named]
    exact member
  · intro member
    exact ⟨_, List.mem_filter.mpr ⟨member, decide_eq_true rfl⟩, rfl⟩

/-- A node with the attributes loaded from a schema object has its values. -/
theorem hasValuesOf_of_loaded {schema : Json} {path : Location} {attributes : List (Str × Str)}
    (loaded : loadSchemaAttributes schema = .ok attributes) :
    (SchemaNode.mk path attributes).HasValuesOf schema := by
  intro name _ value
  have textual := exists_loadSchemaAttributes_iff.mp ⟨attributes, loaded⟩
  constructor
  · intro present
    obtain ⟨text, same⟩ := textual _ present
    subst same
    exact ⟨text, mem_FindAttr.mpr ((mem_of_loadSchemaAttributes loaded).mpr present), rfl⟩
  · intro found
    obtain ⟨text, member, same⟩ := found
    subst same
    exact (mem_of_loadSchemaAttributes loaded).mp (mem_FindAttr.mp member)

end Attributes

section Walks

variable (env : Env)

/-- The pointer of a property of the schema object at a pointer. -/
def propertyPointer (composed token : Str) : Str :=
  composed ++ '/' :: Keyword.PROPERTIES ++ '/' :: token

/-- The pointer of a pattern of the schema object at a pointer. -/
def patternPointer (composed pattern : Str) : Str :=
  composed ++ '/' :: Keyword.PATTERN_PROPERTIES ++ '/' :: pattern

/-- A pattern is the first that matches a token, and those before it are regular expressions. -/
def FirstMatch (token : Str) (patterns : List (Str × Json)) (pattern : Str) : Prop :=
  ∃ before jschema rest, patterns = before ++ (pattern, jschema) :: rest ∧
    (∀ entry ∈ before, env.regexMatch entry.1 token = some false) ∧
      env.regexMatch pattern token = some true

/-- No pattern matches a token, and all of them are regular expressions. -/
def NoMatch (token : Str) (patterns : List (Str × Json)) : Prop :=
  ∀ entry ∈ patterns, env.regexMatch entry.1 token = some false

/-- Where a token leads from a schema object: to that of a property or a pattern, or nowhere. -/
inductive StepsTo (schema : Json) (composed token : Str) : Option (Json × Str) → Prop
  | property {next : Json}
      (listed : (schema.find token).isSome ∨
        schema.find Keyword.PATTERN_PROPERTIES = none ∧ next.isEmpty = false)
      (reads : env.jschema.atText (propertyPointer composed token) = .ok next) :
      StepsTo schema composed token (some (next, propertyPointer composed token))
  | empty {next : Json} (unlisted : schema.find token = none)
      (patternless : schema.find Keyword.PATTERN_PROPERTIES = none)
      (reads : env.jschema.atText (propertyPointer composed token) = .ok next)
      (empty : next.isEmpty = true) :
      StepsTo schema composed token none
  | pattern {patterns next : Json} {pattern : Str} (unlisted : schema.find token = none)
      (patterned : schema.find Keyword.PATTERN_PROPERTIES = some patterns)
      (first : FirstMatch env token patterns.items pattern)
      (reads : env.jschema.atText (patternPointer composed pattern) = .ok next) :
      StepsTo schema composed token (some (next, patternPointer composed pattern))
  | unmatched {patterns : Json} (unlisted : schema.find token = none)
      (patterned : schema.find Keyword.PATTERN_PROPERTIES = some patterns)
      (no_match : NoMatch env token patterns.items) :
      StepsTo schema composed token none

/-- Along the tokens of a path every step can be made and every schema object has texts for
attributes, until the way ends or leads to something. -/
inductive Fits : (tokens : List Str) → (schema : Json) → (composed : Str) → Prop
  | here {schema : Json} {composed : Str} (present : schema ≠ .null) : Fits [] schema composed
  | ends {token : Str} {rest : List Str} {schema : Json} {composed : Str}
      (step : StepsTo env schema composed token none) : Fits (token :: rest) schema composed
  | goesOn {token pointer : Str} {rest : List Str} {schema next : Json} {composed : Str}
      (step : StepsTo env schema composed token (some (next, pointer)))
      (textual : next.Textual) (below : Fits rest next pointer) :
      Fits (token :: rest) schema composed

/-- The two walks fail both, or answer both and the node has the values of the schema object. -/
inductive WalkersAgree : Attempt (Option SchemaNode) → Attempt Json → Prop
  | fail : WalkersAgree (.ok none) (.ok .null)
  | answer {node : SchemaNode} {schema : Json} (present : schema ≠ .null)
      (values : node.HasValuesOf schema) : WalkersAgree (.ok (some node)) (.ok schema)

/-- A schema is loaded, and where it has properties a path fits it; the path of the root has no
attributes there. -/
structure FitsXPath (xpath : Str) : Prop where
  loaded : env.jschema ≠ .null
  fits : ∀ properties ∈ env.jschema.find Keyword.PROPERTIES,
    Fits env (XPath.parse xpath) properties []
  root : ∀ properties ∈ env.jschema.find Keyword.PROPERTIES, XPath.parse xpath = [] →
    ∀ name ∈ Config.PropertyName.SUPPORTED_ATTRIBUTES, ∀ value,
      (name, value) ∉ properties.attributeEntries

variable {env} {schema : Json} {composed token : Str}

theorem regex_match_eq_ok_iff {pattern text : Str} {answer : Bool} :
    env.regex_match pattern text = .ok answer ↔ env.regexMatch pattern text = some answer := by
  unfold Env.regex_match
  cases env.regexMatch pattern text with
  | none => constructor <;> intro impossible <;> cases impossible
  | some other =>
      change Except.ok other = Except.ok answer ↔ _
      simp

/-- The search for a pattern goes through those that do not match. -/
theorem matchingPattern_cons_of_false {entry : Str × Json} {rest : List (Str × Json)}
    (unmatched : env.regexMatch entry.1 token = some false) :
    env.matchingPattern token (entry :: rest) = env.matchingPattern token rest := by
  change (env.regex_match entry.1 token >>= fun matched =>
    if matched then return some entry.1 else env.matchingPattern token rest) = _
  rw [regex_match_eq_ok_iff.mpr unmatched]
  rfl

theorem matchingPattern_eq_some_iff {patterns : List (Str × Json)} {pattern : Str} :
    env.matchingPattern token patterns = .ok (some pattern) ↔
      FirstMatch env token patterns pattern := by
  constructor
  · intro found
    induction patterns with
    | nil => cases found
    | cons entry rest ih =>
        obtain ⟨matched, tried, goes_on⟩ := except_bind_eq_ok.mp found
        rw [regex_match_eq_ok_iff] at tried
        cases matched with
        | true =>
            cases goes_on
            exact ⟨[], entry.2, rest, rfl, fun _ impossible => (by cases impossible), tried⟩
        | false =>
            obtain ⟨before, jschema, behind, split, earlier, first⟩ := ih goes_on
            exact ⟨entry :: before, jschema, behind, by rw [split]; rfl,
              List.forall_mem_cons.mpr ⟨tried, earlier⟩, first⟩
  · intro first
    obtain ⟨before, jschema, behind, split, earlier, matched⟩ := first
    subst split
    induction before with
    | nil => exact except_bind_eq_ok.mpr ⟨true, regex_match_eq_ok_iff.mpr matched, rfl⟩
    | cons entry rest ih =>
        obtain ⟨here, later⟩ := List.forall_mem_cons.mp earlier
        rw [List.cons_append, matchingPattern_cons_of_false here]
        exact ih later

theorem matchingPattern_eq_none_iff {patterns : List (Str × Json)} :
    env.matchingPattern token patterns = .ok none ↔ NoMatch env token patterns := by
  induction patterns with
  | nil => exact ⟨fun _ _ impossible => (by cases impossible), fun _ => rfl⟩
  | cons entry rest ih =>
      unfold NoMatch
      rw [List.forall_mem_cons]
      constructor
      · intro found
        obtain ⟨matched, tried, goes_on⟩ := except_bind_eq_ok.mp found
        cases matched with
        | true => cases goes_on
        | false => exact ⟨regex_match_eq_ok_iff.mp tried, ih.mp goes_on⟩
      · intro unmatched
        rw [matchingPattern_cons_of_false unmatched.1]
        exact ih.mpr unmatched.2

/-- The step to a property that is listed. -/
theorem schemaStep_of_listed {member : Json} (listed : schema.find token = some member) :
    env.schemaStep schema composed token =
      env.jschema.atText (propertyPointer composed token) >>= fun next =>
        return some (next, propertyPointer composed token) := by
  unfold Env.schemaStep
  rw [listed]
  rfl

/-- The step from a schema object without patterns. -/
theorem schemaStep_of_patternless (unlisted : schema.find token = none)
    (patternless : schema.find Keyword.PATTERN_PROPERTIES = none) :
    env.schemaStep schema composed token =
      env.jschema.atText (propertyPointer composed token) >>= fun next =>
        return if next.isEmpty then none else some (next, propertyPointer composed token) := by
  unfold Env.schemaStep
  rw [unlisted, patternless]
  rfl

/-- The step from a schema object with patterns. -/
theorem schemaStep_of_patterned {patterns : Json} (unlisted : schema.find token = none)
    (patterned : schema.find Keyword.PATTERN_PROPERTIES = some patterns) :
    env.schemaStep schema composed token =
      env.matchingPattern token patterns.items >>= fun matched =>
        matched.elim (return none) fun pattern =>
          env.jschema.atText (patternPointer composed pattern) >>= fun next =>
            return some (next, patternPointer composed pattern) := by
  unfold Env.schemaStep
  rw [unlisted, patterned]
  refine congrArg (env.matchingPattern token patterns.items >>= ·) (funext fun matched => ?_)
  cases matched with
  | none => rfl
  | some pattern => rfl

theorem stepsTo_of_schemaStep {outcome : Option (Json × Str)}
    (step : env.schemaStep schema composed token = .ok outcome) :
    StepsTo env schema composed token outcome := by
  cases listed : schema.find token with
  | some member =>
      rw [schemaStep_of_listed listed] at step
      obtain ⟨next, reads, finished⟩ := except_bind_eq_ok.mp step
      cases finished
      exact .property (.inl (by rw [listed]; rfl)) reads
  | none =>
      cases patterned : schema.find Keyword.PATTERN_PROPERTIES with
      | none =>
          rw [schemaStep_of_patternless listed patterned] at step
          obtain ⟨next, reads, finished⟩ := except_bind_eq_ok.mp step
          cases finished
          cases empty : next.isEmpty with
          | true => exact .empty listed patterned reads empty
          | false => exact .property (.inr ⟨patterned, empty⟩) reads
      | some patterns =>
          rw [schemaStep_of_patterned listed patterned] at step
          obtain ⟨matched, found, step⟩ := except_bind_eq_ok.mp step
          cases matched with
          | none =>
              cases step
              exact .unmatched listed patterned (matchingPattern_eq_none_iff.mp found)
          | some pattern =>
              obtain ⟨next, reads, finished⟩ := except_bind_eq_ok.mp step
              cases finished
              exact .pattern listed patterned (matchingPattern_eq_some_iff.mp found) reads

theorem schemaStep_of_stepsTo {outcome : Option (Json × Str)}
    (step : StepsTo env schema composed token outcome) :
    env.schemaStep schema composed token = .ok outcome := by
  cases step with
  | property listed reads =>
      cases present : schema.find token with
      | some member =>
          rw [schemaStep_of_listed present]
          exact except_bind_eq_ok.mpr ⟨_, reads, rfl⟩
      | none =>
          rw [present] at listed
          obtain ⟨patternless, filled⟩ := listed.resolve_left Bool.false_ne_true
          rw [schemaStep_of_patternless present patternless]
          refine except_bind_eq_ok.mpr ⟨_, reads, ?_⟩
          rw [filled]
          rfl
  | empty unlisted patternless reads empty =>
      rw [schemaStep_of_patternless unlisted patternless]
      refine except_bind_eq_ok.mpr ⟨_, reads, ?_⟩
      rw [empty]
      rfl
  | pattern unlisted patterned first reads =>
      rw [schemaStep_of_patterned unlisted patterned]
      exact except_bind_eq_ok.mpr ⟨_, matchingPattern_eq_some_iff.mpr first,
        except_bind_eq_ok.mpr ⟨_, reads, rfl⟩⟩
  | unmatched unlisted patterned no_match =>
      rw [schemaStep_of_patterned unlisted patterned]
      exact except_bind_eq_ok.mpr ⟨_, matchingPattern_eq_none_iff.mpr no_match, rfl⟩

/-- The step of the walks. -/
theorem schemaStep_eq_ok_iff {outcome : Option (Json × Str)} :
    env.schemaStep schema composed token = .ok outcome ↔
      StepsTo env schema composed token outcome :=
  ⟨stepsTo_of_schemaStep, schemaStep_of_stepsTo⟩

/-- The walk for a node after a step. -/
theorem schemaNodeOf_cons_of_some {rest : List Str} {node : SchemaNode} {next : Json}
    {pointer : Str} (step : env.schemaStep schema composed token = .ok (some (next, pointer))) :
    env.schemaNodeOf (token :: rest) schema composed node =
      loadSchemaAttributes next >>= fun attributes =>
        env.schemaNodeOf rest next pointer ⟨node.path ++ [token], attributes⟩ := by
  conv_lhs => unfold Env.schemaNodeOf
  rw [step]
  rfl

theorem schemaNodeOf_cons_of_none {rest : List Str} {node : SchemaNode}
    (step : env.schemaStep schema composed token = .ok none) :
    env.schemaNodeOf (token :: rest) schema composed node = .ok none := by
  unfold Env.schemaNodeOf
  rw [step]
  rfl

theorem schemaNodeOf_cons_of_error {rest : List Str} {node : SchemaNode} {reason : Halt}
    (step : env.schemaStep schema composed token = .error reason) :
    env.schemaNodeOf (token :: rest) schema composed node = .error reason := by
  unfold Env.schemaNodeOf
  rw [step]
  rfl

/-- The walk for a schema object after a step. -/
theorem jsonSchemaOf_cons_of_some {rest : List Str} {next : Json} {pointer : Str}
    (step : env.schemaStep schema composed token = .ok (some (next, pointer))) :
    env.jsonSchemaOf (token :: rest) schema composed = env.jsonSchemaOf rest next pointer := by
  conv_lhs => unfold Env.jsonSchemaOf
  rw [step]
  rfl

theorem jsonSchemaOf_cons_of_none {rest : List Str}
    (step : env.schemaStep schema composed token = .ok none) :
    env.jsonSchemaOf (token :: rest) schema composed = .ok .null := by
  unfold Env.jsonSchemaOf
  rw [step]
  rfl

/-- From a schema object whose values the node has, the walks agree exactly where the rest of
the path fits. -/
theorem walkersAgree_iff_fits {tokens : List Str} {node : SchemaNode}
    (values : tokens = [] → node.HasValuesOf schema) :
    WalkersAgree (env.schemaNodeOf tokens schema composed node)
      (env.jsonSchemaOf tokens schema composed) ↔ Fits env tokens schema composed := by
  induction tokens generalizing schema composed node with
  | nil =>
      constructor
      · intro agree
        cases agree with
        | answer present _ => exact .here present
      · intro fits
        cases fits with
        | here present => exact .answer present (values rfl)
  | cons token rest ih =>
      cases step : env.schemaStep schema composed token with
      | error reason =>
          rw [schemaNodeOf_cons_of_error step]
          constructor
          · intro agree
            cases agree
          · intro fits
            cases fits with
            | ends other => cases step.symm.trans (schemaStep_eq_ok_iff.mpr other)
            | goesOn other _ _ => cases step.symm.trans (schemaStep_eq_ok_iff.mpr other)
      | ok outcome =>
          have steps := schemaStep_eq_ok_iff.mp step
          cases outcome with
          | none =>
              rw [schemaNodeOf_cons_of_none step, jsonSchemaOf_cons_of_none step]
              exact ⟨fun _ => .ends steps, fun _ => .fail⟩
          | some place =>
              obtain ⟨next, pointer⟩ := place
              rw [schemaNodeOf_cons_of_some step, jsonSchemaOf_cons_of_some step]
              constructor
              · intro agree
                cases loaded : loadSchemaAttributes next with
                | error reason =>
                    rw [loaded] at agree
                    cases agree
                | ok attributes =>
                    rw [loaded] at agree
                    exact .goesOn steps (exists_loadSchemaAttributes_iff.mp ⟨_, loaded⟩)
                      ((ih fun _ => hasValuesOf_of_loaded loaded).mp agree)
              · intro fits
                cases fits with
                | ends other => cases step.symm.trans (schemaStep_eq_ok_iff.mpr other)
                | goesOn other textual below =>
                    cases step.symm.trans (schemaStep_eq_ok_iff.mpr other)
                    obtain ⟨attributes, loaded⟩ := exists_loadSchemaAttributes_iff.mpr textual
                    rw [loaded]
                    exact (ih fun _ => hasValuesOf_of_loaded loaded).mpr below

/-- The node of the root has the values of the properties exactly where these have none. -/
theorem root_hasValuesOf_iff {properties : Json} :
    (SchemaNode.mk [] []).HasValuesOf properties ↔
      ∀ name ∈ Config.PropertyName.SUPPORTED_ATTRIBUTES, ∀ value,
        (name, value) ∉ properties.attributeEntries := by
  refine forall₂_congr fun name _ => forall_congr' fun value => ?_
  refine ⟨fun same present => ?_, fun absent => ⟨fun present => absurd present absent, ?_⟩⟩
  · obtain ⟨text, impossible, _⟩ := same.mp present
    cases impossible
  · intro found
    obtain ⟨text, impossible, _⟩ := found
    cases impossible

theorem loadedSchema_of_ne {env : Env} (loaded : env.jschema ≠ .null) :
    env.loadedSchema = .ok env.jschema := if_neg loaded

/-- Where the schema has properties the two functions are the two walks from there. -/
theorem lookups_of_properties {env : Env} {properties : Json} (loaded : env.jschema ≠ .null)
    (listed : env.jschema.find Keyword.PROPERTIES = some properties) (xpath : Str) :
    env.getSchemaByXPath xpath =
        env.schemaNodeOf (XPath.parse xpath) properties [] ⟨[], []⟩ ∧
      env.GetJsonSchemaByXPath xpath = env.jsonSchemaOf (XPath.parse xpath) properties [] := by
  unfold Env.getSchemaByXPath Env.GetJsonSchemaByXPath
  rw [loadedSchema_of_ne loaded]
  constructor
  · simp only [bind, Except.bind, listed]
  · simp only [bind, Except.bind, listed]

/-- Without properties both functions fail. -/
theorem lookups_of_no_properties {env : Env} (loaded : env.jschema ≠ .null)
    (absent : env.jschema.find Keyword.PROPERTIES = none) (xpath : Str) :
    env.getSchemaByXPath xpath = .ok none ∧ env.GetJsonSchemaByXPath xpath = .ok .null := by
  unfold Env.getSchemaByXPath Env.GetJsonSchemaByXPath
  rw [loadedSchema_of_ne loaded]
  constructor
  · simp only [bind, Except.bind, absent]
    rfl
  · simp only [bind, Except.bind, absent]
    rfl

/-- The two walks agree on a path exactly where it fits the schema. -/
theorem walkersAgree_iff (env : Env) (xpath : Str) :
    WalkersAgree (env.getSchemaByXPath xpath) (env.GetJsonSchemaByXPath xpath) ↔
      FitsXPath env xpath := by
  by_cases unloaded : env.jschema = .null
  · have raises : env.getSchemaByXPath xpath = .error .raised :=
      except_bind_eq_error.mpr (.inl (if_pos unloaded))
    rw [raises]
    exact ⟨fun agree => (by cases agree), fun fits => absurd unloaded fits.loaded⟩
  cases listed : env.jschema.find Keyword.PROPERTIES with
  | none =>
      obtain ⟨node, json⟩ := lookups_of_no_properties unloaded listed xpath
      rw [node, json]
      refine ⟨fun _ => ⟨unloaded, ?_, ?_⟩, fun _ => .fail⟩
      · intro properties impossible
        rw [listed] at impossible
        cases impossible
      · intro properties impossible
        rw [listed] at impossible
        cases impossible
  | some properties =>
      obtain ⟨node, json⟩ := lookups_of_properties unloaded listed xpath
      rw [node, json]
      constructor
      · intro agree
        have values : XPath.parse xpath = [] → (SchemaNode.mk [] []).HasValuesOf properties := by
          intro at_root
          rw [at_root] at agree
          cases agree with
          | answer _ values => exact values
        refine ⟨unloaded, ?_, ?_⟩
        · intro other same
          cases listed.symm.trans same
          exact (walkersAgree_iff_fits values).mp agree
        · intro other same at_root
          cases listed.symm.trans same
          exact root_hasValuesOf_iff.mp (values at_root)
      · intro fits
        have below := fits.fits properties listed
        refine (walkersAgree_iff_fits fun at_root => ?_).mpr below
        exact root_hasValuesOf_iff.mpr (fits.root properties listed at_root)

end Walks

end FlexConfig

namespace FlexConfig.Sample

/-- A leaf with a number for its default, and one without a default. -/
def numericDefault : Env :=
  deployment (object [("properties", object [
    ("mac", object [("type", text "string")]),
    ("mtu", object [("default", .number 1500), ("type", text "integer")])])]) fun _ => true

/-- A number is no text for an attribute, and the way to a keyword ends at a node for the one
walk and at nothing for the other. -/
theorem numeric_default_raises :
    (numericDefault.getSchemaByXPath "/mtu".toList = .error .raised ∧
      numericDefault.GetJsonSchemaByXPath "/mtu".toList =
        .ok (object [("default", .number 1500), ("type", text "integer")])) ∧
      (numericDefault.getSchemaByXPath "/mac/type".toList =
          .ok (some ⟨["mac".toList, "type".toList], []⟩) ∧
        numericDefault.GetJsonSchemaByXPath "/mac/type".toList = .ok .null) ∧
      ¬ ∀ (env : Env) (xpath : Str),
        WalkersAgree (env.getSchemaByXPath xpath) (env.GetJsonSchemaByXPath xpath) := by
  have raises : numericDefault.getSchemaByXPath "/mtu".toList = .error .raised := rfl
  refine ⟨⟨raises, rfl⟩, ⟨rfl, rfl⟩, fun agree => ?_⟩
  have impossible := agree numericDefault "/mtu".toList
  rw [raises] at impossible
  cases impossible

end FlexConfig.Sample
