import FlexConfig.Ordering.Completeness

/-! # Which of two listed paths comes first

The names are merged one by one, each put before the first longer one that contains it.
A name is thereby moved ahead of everything that was merged since, the names it depends
on included. Which of two names comes first is decided by the first merged name that
contains one of them (`sublist_mergeAll_iff`).
-/

namespace FlexConfig

open Procedure

section Merge

/-- A name that is put before another one, which it is a proper part of. -/
def isWithin (name node_xpath : Str) : Bool :=
  Text.contains name node_xpath && decide (name.length < node_xpath.length)

theorem isWithin_iff {name other : Str} :
    isWithin name other = true ↔ name <:+: other ∧ name.length < other.length := by
  rw [isWithin, Bool.and_eq_true, Text.contains_iff, decide_eq_true_iff]

theorem contains_iff_isWithin {name other : Str} :
    Text.contains name other = true ↔ name = other ∨ isWithin name other = true := by
  rw [Text.contains_iff, isWithin_iff]
  constructor
  · intro inside
    rcases Nat.lt_or_eq_of_le inside.length_le with shorter | same
    · exact Or.inr ⟨inside, shorter⟩
    · exact Or.inl (inside.eq_of_length same)
  · intro within
    rcases within with same | ⟨inside, _⟩
    · rw [same]
    · exact inside

theorem isWithin_trans {first second third : Str} (inner : isWithin first second = true)
    (outer : isWithin second third = true) : isWithin first third = true := by
  obtain ⟨inside, shorter⟩ := isWithin_iff.mp inner
  obtain ⟨inside', shorter'⟩ := isWithin_iff.mp outer
  exact isWithin_iff.mpr ⟨inside.trans inside', shorter.trans shorter'⟩

theorem not_isWithin_self (name : Str) : isWithin name name ≠ true := fun within =>
  Nat.lt_irrefl _ (isWithin_iff.mp within).2

theorem putBeforeLonger_cons (name other : Str) (rest : List Str) :
    putBeforeLonger name (other :: rest) =
      if isWithin name other then name :: other :: rest else other :: putBeforeLonger name rest := by
  rw [putBeforeLonger]
  rfl

/-- A name goes before a pivot, behind names that are all part of the pivot, exactly when
it is part of the pivot too. -/
theorem putBeforeLonger_around {name pivot : Str} {before behind : List Str}
    (inside : ∀ other ∈ before, isWithin other pivot = true) :
    putBeforeLonger name (before ++ pivot :: behind) =
      if isWithin name pivot then putBeforeLonger name before ++ pivot :: behind
      else before ++ pivot :: putBeforeLonger name behind := by
  induction before with
  | nil => exact putBeforeLonger_cons name pivot behind
  | cons other rest ih =>
      obtain ⟨insideOther, insideRest⟩ := List.forall_mem_cons.mp inside
      rw [List.cons_append, putBeforeLonger_cons, ih insideRest, putBeforeLonger_cons]
      by_cases within : isWithin name other = true
      · rw [if_pos within, if_pos within, if_pos (isWithin_trans within insideOther)]
        rfl
      · rw [if_neg within, if_neg within]
        by_cases inPivot : isWithin name pivot = true
        · rw [if_pos inPivot, if_pos inPivot, List.cons_append]
        · rw [if_neg inPivot, if_neg inPivot, List.cons_append]

/-- The names merged after a pivot are those that are part of it, which go before it, and
the others, which go behind it. -/
theorem foldl_putBeforeLonger_around {pivot : Str} (names before behind : List Str)
    (inside : ∀ other ∈ before, isWithin other pivot = true) :
    names.foldl (fun ordered name => putBeforeLonger name ordered) (before ++ pivot :: behind) =
      (names.filter fun name => isWithin name pivot).foldl
          (fun ordered name => putBeforeLonger name ordered) before ++
        pivot :: (names.filter fun name => !isWithin name pivot).foldl
          (fun ordered name => putBeforeLonger name ordered) behind := by
  induction names generalizing before behind with
  | nil => rfl
  | cons name rest ih =>
      rw [List.foldl_cons, putBeforeLonger_around inside]
      by_cases within : isWithin name pivot = true
      · have stillInside : ∀ other ∈ putBeforeLonger name before, isWithin other pivot = true := by
          intro other member
          rcases mem_putBeforeLonger.mp member with same | earlier
          · rw [same]
            exact within
          · exact inside other earlier
        rw [if_pos within, ih _ _ stillInside]
        simp only [List.filter_cons, within, if_true, Bool.not_true, Bool.false_eq_true, if_false,
          List.foldl_cons]
      · rw [if_neg within, ih _ _ inside]
        have outside : isWithin name pivot = false := Bool.eq_false_iff.mpr within
        simp only [List.filter_cons, outside, Bool.false_eq_true, if_false, Bool.not_false, if_true,
          List.foldl_cons]

theorem mergeAll_cons (pivot : Str) (names : List Str) :
    mergeAll (pivot :: names) =
      mergeAll (names.filter fun name => isWithin name pivot) ++
        pivot :: mergeAll (names.filter fun name => !isWithin name pivot) :=
  foldl_putBeforeLonger_around names [] [] fun _ impossible => (by cases impossible)

theorem putBeforeLonger_perm (name : Str) (ordered : List Str) :
    (putBeforeLonger name ordered).Perm (name :: ordered) := by
  induction ordered with
  | nil => exact .refl _
  | cons other rest ih =>
      rw [putBeforeLonger_cons]
      split
      · exact .refl _
      · exact (ih.cons other).trans (.swap name other rest)

/-- Merging reorders the names. -/
theorem mergeAll_perm (names : List Str) : (mergeAll names).Perm names := by
  induction names using List.reverseRecOn with
  | nil => exact .refl _
  | append_singleton names last ih =>
      rw [mergeAll_concat]
      exact (putBeforeLonger_perm last _).trans
        ((ih.cons last).trans (List.perm_append_singleton last names).symm)

theorem mem_mergeAll {names : List Str} {name : Str} : name ∈ mergeAll names ↔ name ∈ names :=
  (mergeAll_perm names).mem_iff

/-- The names that are part of a name. -/
def partsOf (name : Str) (names : List Str) : List Str :=
  names.filter fun other => isWithin other name

theorem mem_partsOf {name other : Str} {names : List Str} :
    other ∈ partsOf name names ↔ other ∈ names ∧ isWithin other name = true :=
  List.mem_filter

/-- The names that are not part of a name. -/
def apartFrom (name : Str) (names : List Str) : List Str :=
  names.filter fun other => !isWithin other name

theorem mem_apartFrom {name other : Str} {names : List Str} :
    other ∈ apartFrom name names ↔ other ∈ names ∧ isWithin other name = false := by
  rw [apartFrom, List.mem_filter, Bool.not_eq_true']

/-- Whether the first name that contains one of two names puts `ahead` before `behind`:
it contains only that one, or is the other one. Where it is longer than both, the names
that are part of it decide. -/
def leads (ahead behind : Str) : (resolved : List Str) → Bool
  | [] => false
  | name :: rest =>
    if Text.contains ahead name then
      if Text.contains behind name then
        if name = ahead then false
        else if name = behind then true
        else leads ahead behind (partsOf name rest)
      else true
    else if Text.contains behind name then false
    else leads ahead behind rest
termination_by resolved => resolved.length
decreasing_by
  · exact Nat.lt_succ_of_le (List.length_filter_le _ _)
  · exact Nat.lt_succ_self _

/-- Names that contain neither of two names have no say. -/
theorem leads_filter {ahead behind : Str} {keeps : Str → Bool} (names : List Str)
    (kept : ∀ name ∈ names, Text.contains ahead name = true ∨ Text.contains behind name = true →
      keeps name = true) :
    leads ahead behind (names.filter keeps) = leads ahead behind names := by
  induction names using leads.induct ahead behind with
  | case1 => rfl
  | case2 rest holdsAhead holdsBehind =>
      rw [List.filter_cons, if_pos (kept _ List.mem_cons_self (Or.inl holdsAhead)), leads, leads,
        if_pos holdsAhead, if_pos holdsAhead, if_pos holdsBehind, if_pos holdsBehind, if_pos rfl,
        if_pos rfl]
  | case3 rest holdsAhead holdsBehind differs =>
      rw [List.filter_cons, if_pos (kept _ List.mem_cons_self (Or.inl holdsAhead)), leads, leads,
        if_pos holdsAhead, if_pos holdsAhead, if_pos holdsBehind, if_pos holdsBehind,
        if_neg differs, if_neg differs, if_pos rfl, if_pos rfl]
  | case4 name rest holdsAhead holdsBehind notAhead notBehind ih =>
      have parts : partsOf name (rest.filter keeps) = (partsOf name rest).filter keeps := by
        unfold partsOf
        rw [List.filter_filter, List.filter_filter]
        exact List.filter_congr fun _ _ => Bool.and_comm _ _
      rw [List.filter_cons, if_pos (kept _ List.mem_cons_self (Or.inl holdsAhead)), leads, leads,
        if_pos holdsAhead, if_pos holdsAhead, if_pos holdsBehind, if_pos holdsBehind,
        if_neg notAhead, if_neg notAhead, if_neg notBehind, if_neg notBehind, parts]
      exact ih fun other member => kept other (List.mem_cons_of_mem _ (mem_partsOf.mp member).1)
  | case5 name rest holdsAhead lacksBehind =>
      rw [List.filter_cons, if_pos (kept _ List.mem_cons_self (Or.inl holdsAhead)), leads, leads,
        if_pos holdsAhead, if_pos holdsAhead, if_neg lacksBehind, if_neg lacksBehind]
  | case6 name rest lacksAhead holdsBehind =>
      rw [List.filter_cons, if_pos (kept _ List.mem_cons_self (Or.inr holdsBehind)), leads, leads,
        if_neg lacksAhead, if_neg lacksAhead, if_pos holdsBehind, if_pos holdsBehind]
  | case7 name rest lacksAhead lacksBehind ih =>
      have others := ih fun other member => kept other (List.mem_cons_of_mem _ member)
      have skipped : leads ahead behind (name :: rest) = leads ahead behind rest := by
        rw [leads, if_neg lacksAhead, if_neg lacksBehind]
      rw [List.filter_cons, skipped, ← others]
      split
      · rw [leads, if_neg lacksAhead, if_neg lacksBehind]
      · rfl

theorem pair_sublist_cons {a b c : Str} {names : List Str} :
    [a, b].Sublist (c :: names) ↔ a = c ∧ b ∈ names ∨ [a, b].Sublist names := by
  constructor
  · intro sub
    cases sub with
    | cons _ later => exact Or.inr later
    | cons_cons _ here => exact Or.inl ⟨rfl, List.singleton_sublist.mp here⟩
  · intro either
    rcases either with ⟨same, member⟩ | later
    · rw [same]
      exact (List.singleton_sublist.mpr member).cons_cons c
    · exact later.cons c

theorem pair_sublist_append {a b : Str} {first second : List Str} :
    [a, b].Sublist (first ++ second) ↔
      [a, b].Sublist first ∨ a ∈ first ∧ b ∈ second ∨ [a, b].Sublist second := by
  induction first with
  | nil => simp
  | cons c rest ih =>
      rw [List.cons_append, pair_sublist_cons, ih, pair_sublist_cons, List.mem_append,
        List.mem_cons]
      grind

theorem pair_sublist_mergeAll_cons {a b name : Str} {rest : List Str} :
    [a, b].Sublist (mergeAll (name :: rest)) ↔
      [a, b].Sublist (mergeAll (partsOf name rest)) ∨
        a ∈ partsOf name rest ∧ (b = name ∨ b ∈ apartFrom name rest) ∨
        a = name ∧ b ∈ apartFrom name rest ∨
        [a, b].Sublist (mergeAll (apartFrom name rest)) := by
  rw [mergeAll_cons, pair_sublist_append, pair_sublist_cons, List.mem_cons, mem_mergeAll,
    mem_mergeAll]
  rfl

theorem mem_of_pair_sublist_mergeAll {a b : Str} {names : List Str}
    (sub : [a, b].Sublist (mergeAll names)) : a ∈ names ∧ b ∈ names :=
  ⟨mem_mergeAll.mp (sub.subset List.mem_cons_self),
    mem_mergeAll.mp (sub.subset (List.mem_cons_of_mem _ List.mem_cons_self))⟩

/-- A listed name that the first one does not contain is apart from it. -/
theorem mem_apartFrom_iff {name other : Str} {rest : List Str} (fresh : name ∉ rest)
    (member : other ∈ name :: rest) :
    other ∈ apartFrom name rest ↔ ¬ Text.contains other name = true := by
  rw [mem_apartFrom, contains_iff_isWithin, not_or, Bool.not_eq_true]
  constructor
  · intro ⟨later, notWithin⟩
    exact ⟨fun same => fresh (same ▸ later), notWithin⟩
  · intro ⟨differs, notWithin⟩
    exact ⟨(List.mem_cons.mp member).resolve_left differs, notWithin⟩

/-- A listed name that the first one contains is part of it, or it. -/
theorem mem_partsOf_iff {name other : Str} {rest : List Str} (member : other ∈ name :: rest) :
    other ∈ partsOf name rest ↔ Text.contains other name = true ∧ other ≠ name := by
  rw [mem_partsOf, contains_iff_isWithin]
  constructor
  · intro ⟨_, within⟩
    exact ⟨Or.inr within, fun same => not_isWithin_self name (same ▸ within)⟩
  · intro ⟨holds, differs⟩
    exact ⟨(List.mem_cons.mp member).resolve_left differs, holds.resolve_left differs⟩

/-- Of two merged names the one that the first of the names containing them puts ahead
comes first. -/
theorem sublist_mergeAll_iff {ahead behind : Str} (names : List Str) (distinct : names.Nodup)
    (memberAhead : ahead ∈ names) (memberBehind : behind ∈ names) :
    [ahead, behind].Sublist (mergeAll names) ↔ leads ahead behind names = true := by
  match names with
  | [] => cases memberAhead
  | name :: rest =>
      obtain ⟨fresh, distinctRest⟩ := List.nodup_cons.mp distinct
      have apartAhead := mem_apartFrom_iff fresh memberAhead
      have apartBehind := mem_apartFrom_iff fresh memberBehind
      have partAhead := mem_partsOf_iff memberAhead
      have partBehind := mem_partsOf_iff memberBehind
      have inParts := @mem_of_pair_sublist_mergeAll ahead behind (partsOf name rest)
      have inOthers := @mem_of_pair_sublist_mergeAll ahead behind (apartFrom name rest)
      have self : Text.contains name name = true := contains_iff_isWithin.mpr (Or.inl rfl)
      rw [pair_sublist_mergeAll_cons, leads]
      by_cases holdsAhead : Text.contains ahead name = true
      · rw [if_pos holdsAhead]
        by_cases holdsBehind : Text.contains behind name = true
        · rw [if_pos holdsBehind]
          by_cases isAhead : name = ahead
          · rw [if_pos isAhead]
            refine iff_of_false (fun either => ?_) Bool.false_ne_true
            rcases either with inside | ⟨inside, _⟩ | ⟨_, other⟩ | later
            · exact (partAhead.mp (inParts inside).1).2 isAhead.symm
            · exact (partAhead.mp inside).2 isAhead.symm
            · exact apartBehind.mp other holdsBehind
            · exact apartAhead.mp (inOthers later).1 holdsAhead
          · rw [if_neg isAhead]
            have inside := partAhead.mpr ⟨holdsAhead, fun same => isAhead same.symm⟩
            by_cases isBehind : name = behind
            · rw [if_pos isBehind]
              exact iff_of_true (Or.inr (Or.inl ⟨inside, Or.inl isBehind.symm⟩)) rfl
            · rw [if_neg isBehind]
              have shorter : (partsOf name rest).length < (name :: rest).length :=
                Nat.lt_succ_of_le (List.length_filter_le _ _)
              rw [← sublist_mergeAll_iff (partsOf name rest) (distinctRest.filter _) inside
                (partBehind.mpr ⟨holdsBehind, fun same => isBehind same.symm⟩)]
              refine ⟨fun either => ?_, Or.inl⟩
              rcases either with both | ⟨_, same | other⟩ | ⟨same, _⟩ | later
              · exact both
              · exact (isBehind same.symm).elim
              · exact (apartBehind.mp other holdsBehind).elim
              · exact (isAhead same.symm).elim
              · exact (apartAhead.mp (inOthers later).1 holdsAhead).elim
        · rw [if_neg holdsBehind]
          have other := apartBehind.mpr holdsBehind
          refine iff_of_true ?_ rfl
          by_cases isAhead : ahead = name
          · exact Or.inr (Or.inr (Or.inl ⟨isAhead, other⟩))
          · exact Or.inr (Or.inl ⟨partAhead.mpr ⟨holdsAhead, isAhead⟩, Or.inr other⟩)
      · rw [if_neg holdsAhead]
        have aheadLater : ∀ {P : Prop}, ahead ∈ partsOf name rest ∨ ahead = name → P := by
          intro P either
          rcases either with inside | same
          · exact (holdsAhead (partAhead.mp inside).1).elim
          · exact (holdsAhead (same ▸ self)).elim
        by_cases holdsBehind : Text.contains behind name = true
        · rw [if_pos holdsBehind]
          refine iff_of_false (fun either => ?_) Bool.false_ne_true
          rcases either with inside | ⟨inside, _⟩ | ⟨same, _⟩ | later
          · exact aheadLater (Or.inl (inParts inside).1)
          · exact aheadLater (Or.inl inside)
          · exact aheadLater (Or.inr same)
          · exact apartBehind.mp (inOthers later).2 holdsBehind
        · rw [if_neg holdsBehind]
          have shorter : (apartFrom name rest).length < (name :: rest).length :=
            Nat.lt_succ_of_le (List.length_filter_le _ _)
          -- what is part of the first name contains none of the two
          have skipped : leads ahead behind (apartFrom name rest) = leads ahead behind rest := by
            refine leads_filter rest fun other _ holds => ?_
            rw [Bool.not_eq_true', Bool.eq_false_iff]
            intro within
            have inName := Text.contains_iff.mp (contains_iff_isWithin.mpr (Or.inr within))
            rcases holds with inside | inside
            · exact holdsAhead (Text.contains_iff.mpr ((Text.contains_iff.mp inside).trans inName))
            · exact holdsBehind (Text.contains_iff.mpr ((Text.contains_iff.mp inside).trans inName))
          rw [← skipped, ← sublist_mergeAll_iff (apartFrom name rest) (distinctRest.filter _)
            (apartAhead.mpr holdsAhead) (apartBehind.mpr holdsBehind)]
          refine ⟨fun either => ?_, fun later => Or.inr (Or.inr (Or.inr later))⟩
          rcases either with inside | ⟨inside, _⟩ | ⟨same, _⟩ | later
          · exact aheadLater (Or.inl (inParts inside).1)
          · exact aheadLater (Or.inl inside)
          · exact aheadLater (Or.inr same)
          · exact later
termination_by names.length
decreasing_by all_goals exact shorter

end Merge

section Declared

/-- A token of an evaluated dependency stands for a name: `*` for every name, `@` for the
name of the node whose dependency it is, and any other token for itself. -/
def tokenDenotes (start : Location) (token name : Str) : Prop :=
  token = XPath.WILDCARD_TOKEN ∨
    token = XPath.REFERENCE_TOKEN ∧ name = XPath.nameOf start ∨
      token ≠ XPath.REFERENCE_TOKEN ∧ name = token

instance (start : Location) (token name : Str) : Decidable (tokenDenotes start token name) :=
  inferInstanceAs (Decidable (_ ∨ _ ∧ _ ∨ _ ∧ _))

/-- A dependency of the node at `start` denotes the node at `target`: `[@key]` is evaluated
in the path of the node, and every token stands for the name in its place. -/
def Denotes (start : Location) (dep : Str) (target : Location) : Prop :=
  ∃ evaluated ∈ (XPath.evaluateXPath start dep).toOption,
    (XPath.parse evaluated).length = target.length ∧
      ∀ pair ∈ (XPath.parse evaluated).zip target, tokenDenotes start pair.1 pair.2

instance (start : Location) (dep : Str) (target : Location) :
    Decidable (Denotes start dep target) :=
  inferInstanceAs (Decidable (∃ _ ∈ _, _ ∧ _))

/-- The update dependencies stated for the node at a location. -/
def statedDependencies (env : Env) (location : Location) : List Str :=
  match env.getSchemaByXPath (XPath.toString location) with
  | .ok (some schema_node) => schema_node.FindAttr Config.PropertyName.UPDATE_DEPENDENCIES
  | _ => []

/-- The locations of the nodes of a tree. -/
def locations (config : Node) : List Location := config.nodes.map Located.location

/-- A node is stated to be updated after another one. -/
def Declared (env : Env) (config : Node) (start target : Location) : Prop :=
  start ∈ locations config ∧ target ∈ locations config ∧
    ∃ dep ∈ statedDependencies env start, Denotes start dep target

instance (env : Env) (config : Node) (start target : Location) :
    Decidable (Declared env config start target) :=
  inferInstanceAs (Decidable (_ ∧ _ ∧ ∃ _ ∈ _, _))

/-- A node is to be updated before another one, which depends on it or is below it. -/
def ToPrecede (env : Env) (config : Node) (target start : Location) : Prop :=
  Declared env config start target ∨
    target ∈ locations config ∧ start ∈ locations config ∧ target <+: start ∧ target ≠ start

instance (env : Env) (config : Node) (target start : Location) :
    Decidable (ToPrecede env config target start) :=
  inferInstanceAs (Decidable (_ ∨ _ ∧ _ ∧ _ ∧ _))

/-- The dependencies stated for a tree can be met together with updating every node before
the nodes below it. -/
def Satisfiable (env : Env) (config : Node) : Prop :=
  ∀ location, ¬ Relation.TransGen (ToPrecede env config) location location

/-- A list of paths has every node after the nodes it depends on, where that can be. -/
def HonoursDependencies (env : Env) (config : Node) (ordered : List Str) : Prop :=
  Satisfiable env config → ∀ start target, Declared env config start target →
    [XPath.toString target, XPath.toString start].Sublist ordered

/-- The evaluated dependencies have no cycle, both paths are those of nodes with a schema,
and in the depth-first order of the evaluated dependencies the first path that contains
one of them puts `ahead` first. -/
def PlacesAhead (env : Env) (config : Node) (ahead behind : Str) : Prop :=
  ∃ dependencies, getDependencies env config = .ok dependencies ∧
    ¬ Cyclic (evaluateDependencies config dependencies) ∧
      Orderable env config ahead ∧ Orderable env config behind ∧
        leads ahead behind (resolvedKeys (evaluateDependencies config dependencies)) = true

/-- Without a cycle a resolved list merges the keys in depth-first order. -/
theorem resolve_eq_mergeAll {config : Node} {ordered : List Str} {dependencies : Adjacency}
    (resolved : NodeDependencyManager.resolve env config = .ok ordered)
    (collected : getDependencies env config = .ok dependencies)
    (acyclic : ¬ Cyclic (evaluateDependencies config dependencies)) :
    ordered = mergeAll (resolvedKeys (evaluateDependencies config dependencies)) := by
  obtain ⟨other, collected', resolved⟩ := except_bind_eq_ok.mp resolved
  cases collected.symm.trans collected'
  have sorted := run_update_op_of_acyclic acyclic
  split at resolved
  · next run =>
      cases resolved
      cases sorted.symm.trans run
      rfl
  · next refused => cases sorted.symm.trans refused
  · cases resolved

/-- Of two paths one precedes the other in the list exactly where it is placed ahead. -/
theorem sublist_resolved_iff {config : Node} {ordered : List Str}
    (resolved : NodeDependencyManager.resolve env config = .ok ordered) {ahead behind : Str} :
    [ahead, behind].Sublist ordered ↔ PlacesAhead env config ahead behind := by
  obtain ⟨unique, listed, unsorted⟩ := resolve_spec resolved
  obtain ⟨dependencies, collected, _⟩ := except_bind_eq_ok.mp resolved
  have decided : ¬ Cyclic (evaluateDependencies config dependencies) →
      Orderable env config ahead → Orderable env config behind →
        ([ahead, behind].Sublist ordered ↔
          leads ahead behind (resolvedKeys (evaluateDependencies config dependencies)) = true) := by
    intro acyclic aheadListed behindListed
    have members := listed ((sorts_iff_acyclic collected).mpr acyclic)
    have merged := resolve_eq_mergeAll resolved collected acyclic
    have same := mergeAll_perm (resolvedKeys (evaluateDependencies config dependencies))
    rw [← merged] at same
    rw [merged]
    exact sublist_mergeAll_iff _ (same.nodup_iff.mp unique)
      (same.mem_iff.mp ((members ahead).mpr aheadListed))
      (same.mem_iff.mp ((members behind).mpr behindListed))
  constructor
  · intro sub
    have acyclic : ¬ Cyclic (evaluateDependencies config dependencies) := by
      intro cycle
      rw [unsorted fun sorts => (sorts_iff_acyclic collected).mp sorts cycle] at sub
      cases sub
    have members := listed ((sorts_iff_acyclic collected).mpr acyclic)
    have aheadListed := (members ahead).mp (sub.subset List.mem_cons_self)
    have behindListed :=
      (members behind).mp (sub.subset (List.mem_cons_of_mem _ List.mem_cons_self))
    exact ⟨dependencies, collected, acyclic, aheadListed, behindListed,
      (decided acyclic aheadListed behindListed).mp sub⟩
  · intro ⟨other, collected', acyclic, aheadListed, behindListed, first⟩
    cases collected.symm.trans collected'
    exact (decided acyclic aheadListed behindListed).mpr first

theorem ToPrecede.mem_locations {config : Node} {target start : Location}
    (precedes : ToPrecede env config target start) :
    target ∈ locations config ∧ start ∈ locations config := by
  rcases precedes with ⟨start, target, _⟩ | ⟨target, start, _⟩
  · exact ⟨target, start⟩
  · exact ⟨target, start⟩

/-- A rank that every dependency and every step down respects shows them to be satisfiable. -/
theorem satisfiable_of_rank {config : Node} (rank : Location → Nat)
    (respects : ∀ target ∈ locations config, ∀ start ∈ locations config,
      ToPrecede env config target start → rank target < rank start) :
    Satisfiable env config := by
  have grows : ∀ {target start}, Relation.TransGen (ToPrecede env config) target start →
      rank target < rank start := by
    intro target start path
    induction path with
    | single step => exact respects _ step.mem_locations.1 _ step.mem_locations.2 step
    | tail _ step ih =>
        exact ih.trans (respects _ step.mem_locations.1 _ step.mem_locations.2 step)
  exact fun location cycle => Nat.lt_irrefl _ (grows cycle)

end Declared

end FlexConfig

namespace FlexConfig.Sample

/-- A node that is to be updated after the leaf `a` next to it. -/
def waiting (members : List (String × Json)) : Env := deployment
  (container [("a", object [("type", text "string")]),
    ("b", object (members ++ [("update-dependencies", .array [text "/a"])]))])
  fun _ => true

def waitingContainer : Env :=
  waiting [("properties", object [("x", object [("type", text "string")])]),
    ("type", text "object")]

def waitingConfig : Node :=
  .composite [("a".toList, .leaf []), ("b".toList, .composite [("x".toList, .leaf [])])]

/-- How far the nodes of the sample are from the leaf `a` in the order to be kept. -/
def waitingRank (location : Location) : Nat :=
  if location = ["a".toList] then 0 else location.length

def waitingLeaf : Env := waiting [("type", text "string")]

def waitingLeaves : Node := .composite [("a".toList, .leaf []), ("b".toList, .leaf [])]

end FlexConfig.Sample
