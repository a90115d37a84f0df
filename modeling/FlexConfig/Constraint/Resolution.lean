import FlexConfig.Constraint.Logic
import FlexConfig.Tree.KeyTemplate

/-! # Two ways to resolve `[@key]`

`xpath` writes one name for every `[@key]` of a path, that of the parent of an ancestor
named like the token behind the last of them; `xpath_value` writes for each the name that
stands at the same place of the current node's own path. The two paths are the same
exactly where these names are, or nothing is seen of the path (`resolved_alike_iff`).
-/

namespace FlexConfig.Constraint

open XPath Procedure

/-- The tokens a path is resolved by. -/
def keyedTokens (xpath : Str) : List Str := parse (separateKeys xpath)

/-- The path of `xpath`. -/
def xpathPath (node : Location) (xpath : Str) : Answer Str := passing (evaluateXPath node xpath)

/-- The path of `xpath_value`. -/
def xpathValuePath (node : Location) (xpath : Str) : Answer Str :=
  resolveByPlace node (fun own => .ok (some own)) xpath

section Handlers

variable (checker : ConstraintChecker) (node : Location) {xpath path : Str}

/-- `xpath` answers with its path where it leads to a node. -/
theorem XPathHandle_eq (nonempty : xpath ≠ []) (resolved : xpathPath node xpath = .ok path)
    (tokens : List Str) (sv : Str) :
    XPathHandle checker node ⟨[.string xpath], tokens, sv⟩ =
      .ok (.xpaths (if (select checker.root_config path).isNone then [] else [path])) := by
  have evaluated : passing (evaluateXPath node xpath) = .ok path := resolved
  have unfolded : XPathHandle checker node ⟨[.string xpath], tokens, sv⟩ =
      if xpath = [] then .ok (.xpaths []) else do
        let resolved_xpath ← passing (evaluateXPath node xpath)
        if (select checker.root_config resolved_xpath).isNone then return .xpaths []
        return .xpaths [resolved_xpath] := rfl
  rw [unfolded, if_neg nonempty, evaluated]
  by_cases absent : (select checker.root_config path).isNone = true
  · rw [if_pos absent]
    exact if_pos absent
  · rw [if_neg absent]
    exact if_neg absent

/-- `xpath_value` answers with the value of the leaf its path leads to. -/
theorem XPathValueHandle_eq (nonempty : xpath ≠ []) (resolved : xpathValuePath node xpath = .ok path)
    {location : Location} {value : Str}
    (selected : select checker.root_config path = some ⟨location, .leaf value⟩)
    (tokens : List Str) (sv : Str) :
    XPathValueHandle checker node ⟨[.string xpath], tokens, sv⟩ = .ok (.string value) := by
  have placed : resolveByPlace node (fun own => .ok (some own)) xpath = .ok path := resolved
  unfold XPathValueHandle
  simp [valueAt, Any.asString, nonempty, placed, selected, bind, Except.bind, pure, Except.pure]

end Handlers

section Places

/-- Every `[@key]` replaced by the name at its own place, and left where there is none. -/
def placed (own tokens : List Str) : List Str :=
  tokens.mapIdx fun place token =>
    if token = ITEM_NAME_SUBSCRIPT then own.getD place ITEM_NAME_SUBSCRIPT else token

theorem placed_cons (token : Str) (rest own : List Str) :
    placed own (token :: rest) =
      (if token = ITEM_NAME_SUBSCRIPT then own.headD ITEM_NAME_SUBSCRIPT else token) ::
        placed own.tail rest := by
  unfold placed
  rw [List.mapIdx_cons]
  cases own with
  | nil => rfl
  | cons name others => rfl

theorem rebuildXPath_eq (tokens own : List Str) :
    rebuildXPath (fun name => .ok (some name)) tokens own = .ok (join (placed own tokens)) := by
  induction tokens generalizing own with
  | nil => rfl
  | cons token rest ih =>
      rw [placed_cons]
      cases own with
      | nil =>
          unfold rebuildXPath
          rw [ih]
          by_cases key : token = ITEM_NAME_SUBSCRIPT
          · rw [if_pos key, key]
            rfl
          · rw [if_neg key]
            rfl
      | cons name others =>
          unfold rebuildXPath
          rw [ih]
          by_cases key : token = ITEM_NAME_SUBSCRIPT
          · rw [if_pos key, if_pos key]
            rfl
          · rw [if_neg key, if_neg key]
            rfl

theorem xpathValuePath_eq (node : Location) (xpath : Str) :
    xpathValuePath node xpath = .ok (join (placed (parse (toString node)) (keyedTokens xpath))) :=
  rebuildXPath_eq _ _

/-- One name for all keys is the name at the place of each. -/
theorem substituted_eq_placed_iff {own tokens : List Str} {name : Str} :
    tokens.map (substitute name) = placed own tokens ↔
      ∀ place, tokens[place]? = some ITEM_NAME_SUBSCRIPT →
        own.getD place ITEM_NAME_SUBSCRIPT = name := by
  unfold placed
  rw [List.ext_getElem?_iff]
  refine forall_congr' fun place => ?_
  rw [List.getElem?_map, List.getElem?_mapIdx]
  cases here : tokens[place]? with
  | none => simp
  | some token =>
      by_cases key : token = ITEM_NAME_SUBSCRIPT
      · simp [substitute, key, eq_comm]
      · simp [substitute, key]

end Places

section Alike

variable {node : Location} {xpath : Str}

/-- A text with a character that is no separator before its first NUL has a token. -/
theorem parse_ne_nil {text : Str} {c : Char} (member : c ∈ Text.c_str text) (other : c ≠ '/') :
    parse text ≠ [] := by
  intro none
  have letters : (parse text).flatten = (Text.c_str text).filter (· ≠ '/') := by
    rw [parse_eq, Text.flatten_pieces]
  have kept : c ∈ (Text.c_str text).filter (· ≠ '/') :=
    List.mem_filter.mpr ⟨member, decide_eq_true other⟩
  rw [← letters, none] at kept
  cases kept

/-- A path that begins with another character than a separator has a token, unless it begins with
a NUL. -/
theorem keyedTokens_eq_nil_iff {c : Char} {rest : Str} (other : c ≠ '/') :
    keyedTokens (c :: rest) = [] ↔ c = Text.NUL := by
  unfold keyedTokens
  constructor
  · intro none
    by_contra visible
    by_cases starts : ITEM_NAME_SUBSCRIPT <+: c :: rest
    · obtain ⟨behind, split⟩ := starts
      have seen : '[' ∈ Text.c_str (ITEM_NAME_SUBSCRIPT ++ separateKeys behind) := by
        rw [Text.c_str_append_of_notMem (by decide)]
        exact List.mem_cons_self
      rw [← split, separateKeys_key, parse_cons_separator] at none
      exact parse_ne_nil seen (by decide) none
    · have begins : separateKeys (c :: rest) = c :: separateKeys rest := by
        unfold separateKeys Text.replaceAll
        rw [Text.replaceFrom, if_neg fun isPrefix => starts (List.isPrefixOf_iff_prefix.mp isPrefix)]
      have seen : c ∈ Text.c_str (c :: separateKeys rest) := by
        unfold Text.c_str
        rw [List.takeWhile_cons, if_pos (decide_eq_true visible)]
        exact List.mem_cons_self
      rw [begins] at none
      exact parse_ne_nil seen other none
  · rintro rfl
    have begins : separateKeys (Text.NUL :: rest) = [Text.NUL] ++ separateKeys rest :=
      Text.replaceAll_cons (by decide) rest
    rw [begins, parse_append_of_mem (List.mem_singleton_self _)]
    rfl

theorem slashFree_placed (own : Location) (xpath : Str) :
    ∀ token ∈ placed (parse (toString own)) (keyedTokens xpath), '/' ∉ token := by
  intro token member
  obtain ⟨place, inside, rfl⟩ := List.mem_mapIdx.mp member
  split
  · rw [List.getD_eq_getElem?_getD]
    cases here : (parse (toString own))[place]? with
    | none => decide
    | some name => exact (isToken_of_mem_parse (List.mem_of_getElem? here)).2
  · exact (isToken_of_mem_parse (List.getElem_mem inside)).2

/-- An absolute path is evaluated with one name for all keys. -/
theorem xpathPath_absolute (node : Location) (rest : Str) :
    xpathPath node ('/' :: rest) = .ok (join ((keyedTokens ('/' :: rest)).map
      (substitute (resolveKeyName node (wantedChild (keyedTokens ('/' :: rest))))))) := rfl

/-- The two paths are the same exactly where the path is absolute and the name at the place of
each `[@key]` in the node's own path is what the key stands for, or nothing of the path is seen.
The two functions then tell of one node. -/
theorem resolved_alike_iff (keyed : Text.contains ITEM_NAME_SUBSCRIPT xpath = true) :
    (xpathPath node xpath = xpathValuePath node xpath ↔
      xpath.head? = some Text.NUL ∨
        xpath.head? = some '/' ∧ ∀ place, (keyedTokens xpath)[place]? = some ITEM_NAME_SUBSCRIPT →
          KeyStandsFor node (wantedChild (keyedTokens xpath))
            ((parse (toString node)).getD place ITEM_NAME_SUBSCRIPT)) ∧
    ∀ (checker : ConstraintChecker) (path : Str) (location : Location) (value : Str),
      xpathPath node xpath = .ok path → xpathValuePath node xpath = .ok path →
      select checker.root_config path = some ⟨location, .leaf value⟩ →
      ∀ tokens sv, XPathHandle checker node ⟨[.string xpath], tokens, sv⟩ = .ok (.xpaths [path]) ∧
        XPathValueHandle checker node ⟨[.string xpath], tokens, sv⟩ = .ok (.string value) := by
  have nonempty : xpath ≠ [] := by
    rintro rfl
    cases keyed
  refine ⟨?_, fun checker path location value byAncestor byPlace selected tokens sv => ⟨?_, ?_⟩⟩
  · obtain ⟨c, rest, rfl⟩ := List.exists_cons_of_ne_nil nonempty
    have none_iff : (c :: rest).head? = some Text.NUL ↔ c = Text.NUL := by
      rw [List.head?_cons, Option.some.injEq]
    rw [xpathValuePath_eq, none_iff]
    by_cases absolute : c = '/'
    · subst absolute
      have proper := slashFree_placed node ('/' :: rest)
      have lengths : (placed (parse (toString node)) (keyedTokens ('/' :: rest))).length =
          (keyedTokens ('/' :: rest)).length := List.length_mapIdx
      rw [xpathPath_absolute, Except.ok.injEq, or_iff_right (by decide)]
      constructor
      · intro same
        have alike := join_injective proper (by rw [lengths, List.length_map]) same
        refine ⟨rfl, fun place key => resolveKeyName_iff.mp ?_⟩
        exact substituted_eq_placed_iff.mp alike place key
      · rintro ⟨_, names⟩
        refine congrArg join (substituted_eq_placed_iff.mpr fun place key => ?_)
        exact resolveKeyName_iff.mpr (names place key)
    · have nothing : xpathPath node (c :: rest) = .ok [] := congrArg passing (if_pos absolute)
      have apart : ¬ (c :: rest).head? = some '/' := fun starts => absolute (Option.some.inj starts)
      rw [nothing, Except.ok.injEq, or_iff_left fun starts => apart starts.1,
        ← keyedTokens_eq_nil_iff absolute]
      constructor
      · intro same
        cases tokens : keyedTokens (c :: rest) with
        | nil => rfl
        | cons first others =>
            rw [tokens, placed_cons] at same
            cases same
      · intro none
        rw [none]
        rfl
  · rw [XPathHandle_eq checker node nonempty byAncestor, selected]
    rfl
  · exact XPathValueHandle_eq checker node nonempty byPlace selected tokens sv

end Alike

end FlexConfig.Constraint

namespace FlexConfig.Sample

open Constraint XPath

/-- The lag of a link aggregation group is not what `xpath` takes the key for. -/
theorem lag_protocol_resolved_apart :
    let lag := ["protocol".toList, "lacp".toList, "lag-1".toList]
    let xpath := "/interface/aggregate-ethernet[@key]/protocol".toList
    xpathPath lag xpath = .ok "/interface/aggregate-ethernet///protocol".toList ∧
      xpathValuePath lag xpath = .ok "/interface/aggregate-ethernet/lag-1/protocol".toList ∧
      xpathPath lag xpath ≠ xpathValuePath lag xpath := by
  intro lag xpath
  have ancestors : evaluateXPath lag xpath =
      .ok "/interface/aggregate-ethernet///protocol".toList := by decide +kernel
  have places : join (placed (parse (XPath.toString lag)) (keyedTokens xpath)) =
      "/interface/aggregate-ethernet/lag-1/protocol".toList := by decide +kernel
  have byAncestors : xpathPath lag xpath = _ := congrArg passing ancestors
  have byPlaces := xpathValuePath_eq lag xpath
  rw [places] at byPlaces
  refine ⟨byAncestors, byPlaces, fun same => ?_⟩
  have texts := Except.ok.inj (byAncestors.symm.trans (same.trans byPlaces))
  exact absurd texts (by decide)

theorem speed_resolved_alike :
    let speed := ["interface".toList, "ethernet".toList, "eth1".toList, "speed".toList]
    let xpath := "/platform/port[@key]/speed".toList
    xpathPath speed xpath = xpathValuePath speed xpath ↔
      xpath.head? = some Text.NUL ∨
        xpath.head? = some '/' ∧ ∀ place, (keyedTokens xpath)[place]? = some ITEM_NAME_SUBSCRIPT →
          KeyStandsFor speed (wantedChild (keyedTokens xpath))
            ((parse (XPath.toString speed)).getD place ITEM_NAME_SUBSCRIPT) :=
  (resolved_alike_iff (by decide +kernel)).1

end FlexConfig.Sample
