import FlexConfig.Constraint.Wildcards

/-! # Keys that match a regular expression

`xpath_match_regex` lists the children of the node before a wildcard and keeps those whose
path has the path of another node in it and matches a regular expression as a whole. The
expressions of the schema are written for the names of the children, not for their paths.
-/

namespace FlexConfig.Constraint

open XPath Procedure Node Peg

variable (checker : ConstraintChecker) (node : Location)

/-- The node at a path that is evaluated for the current node. -/
def nodeAt (xpath : Str) : Option Located :=
  (xpathPath node xpath).toOption.bind (select checker.root_config)

/-- Whether a regular expression matches a text. -/
def Fits (re text : Str) : Prop := checker.config_mngr.regexMatch re text = some true

/-- The arguments of `xpath_match_regex`. -/
def matchArguments (xpath pre re : Str) : SemanticValues Any :=
  ⟨[.string xpath, .string (wildcardXPath pre none), .string re], [], []⟩

/-- What is returned are the paths of the children of the node at `pre` that begin with the
path of a node, of the children with a name that matches. -/
def MatchesNames (found : Located) (xpath pre re : Str) : Prop :=
  ∃ xpaths, XPathMatchRegexHandle checker node (matchArguments xpath pre re) =
      .ok (.xpaths xpaths) ∧
    ∀ listed, listed ∈ xpaths ↔ ∃ parent ∈ nodeAt checker node pre, ∃ entry ∈ parent.node.children,
      listed = childXPath parent entry.1 ∧ XPath.toString found.location <+: listed ∧
        Fits checker re entry.1

/-- The paths of the children match a regular expression where their names do: of a child below
the node its path matches, and selects a node, if its name matches; and of the paths listed
that have the node's path in them none matches but of such a child. -/
structure PathsFitAsNames (found : Located) (pre re : Str) : Prop where
  rooted : re ≠ [] → pre ≠ []
  complete : ∀ parent ∈ nodeAt checker node pre, ∀ entry ∈ parent.node.children,
    XPath.toString found.location <+: childXPath parent entry.1 → Fits checker re entry.1 →
      re ≠ [] ∧ Fits checker re (childXPath parent entry.1) ∧
        (select checker.root_config (childXPath parent entry.1)).isSome
  sound : re ≠ [] → ∀ parent ∈ nodeAt checker node pre, ∀ listed ∈ getAllSubnodes parent,
    Text.contains (XPath.toString found.location) listed = true →
      (checker.config_mngr.regexMatch re listed).isSome ∧
        (Fits checker re listed → (select checker.root_config listed).isSome →
          ∃ entry ∈ parent.node.children, listed = childXPath parent entry.1 ∧
            XPath.toString found.location <+: listed ∧ Fits checker re entry.1)

section Keep

variable {checker} {re : Str} {xpaths : List Str}

theorem passing_regex_match {xpath : Str} {matched : Bool} :
    passing (checker.config_mngr.regex_match re xpath) = .ok matched ↔
      checker.config_mngr.regexMatch re xpath = some matched := by
  unfold Env.regex_match
  cases checker.config_mngr.regexMatch re xpath with
  | none => exact ⟨fun impossible => (by cases impossible), fun impossible => (by cases impossible)⟩
  | some answer =>
      refine ⟨fun same => ?_, fun same => ?_⟩
      · cases same
        rfl
      · cases same
        rfl

/-- What is kept are the paths that match and lead to nodes. -/
theorem keepMatching_ok
    (regular : ∀ xpath ∈ xpaths, (checker.config_mngr.regexMatch re xpath).isSome) :
    ∃ kept, keepMatching checker re xpaths = .ok kept ∧ ∀ xpath, xpath ∈ kept ↔
      xpath ∈ xpaths ∧ Fits checker re xpath ∧ (select checker.root_config xpath).isSome := by
  induction xpaths with
  | nil => exact ⟨[], rfl, fun _ => by simp⟩
  | cons first rest ih =>
      obtain ⟨regularHere, regularRest⟩ := List.forall_mem_cons.mp regular
      obtain ⟨others, keptRest, members⟩ := ih regularRest
      obtain ⟨matched, answered⟩ := Option.isSome_iff_exists.mp regularHere
      refine ⟨_, except_bind_eq_ok.mpr ⟨matched, passing_regex_match.mpr answered,
        except_bind_eq_ok.mpr ⟨others, keptRest, rfl⟩⟩, fun xpath => ?_⟩
      by_cases keeps : matched = true ∧ (select checker.root_config first).isSome = true
      · rw [if_pos keeps, List.mem_cons, List.mem_cons, members]
        constructor
        · rintro (rfl | ⟨member, fits, found⟩)
          · exact ⟨.inl rfl, answered.trans (congrArg some keeps.1), keeps.2⟩
          · exact ⟨.inr member, fits, found⟩
        · rintro ⟨rfl | member, fits, found⟩
          · exact .inl rfl
          · exact .inr ⟨member, fits, found⟩
      · rw [if_neg keeps, List.mem_cons, members]
        refine ⟨fun ⟨member, both⟩ => ⟨.inr member, both⟩, ?_⟩
        rintro ⟨rfl | member, fits, found⟩
        · exact absurd ⟨Option.some.inj (answered.symm.trans fits), found⟩ keeps
        · exact ⟨member, fits, found⟩

/-- A regular expression that is none raises at the first path it is tried on. -/
theorem regular_of_keepMatching {kept : List Str}
    (keeps : keepMatching checker re xpaths = .ok kept) :
    ∀ xpath ∈ xpaths, (checker.config_mngr.regexMatch re xpath).isSome := by
  induction xpaths generalizing kept with
  | nil => exact fun _ impossible => nomatch impossible
  | cons first rest ih =>
      obtain ⟨matched, answered, keeps⟩ := except_bind_eq_ok.mp keeps
      obtain ⟨others, keptRest, _⟩ := except_bind_eq_ok.mp keeps
      refine List.forall_mem_cons.mpr ⟨?_, ih keptRest⟩
      rw [passing_regex_match.mp answered]
      rfl

end Keep

section Handle

variable {checker node} {xpath pre re path : Str} {found : Located}

theorem matchCandidates_eq (plain : NoWildcard pre) :
    matchCandidates checker node (wildcardXPath pre none) =
      (passing (evaluateXPath node pre)).map fun resolved =>
        ((select checker.root_config resolved).map getAllSubnodes).getD [] := by
  have located : Text.find WILDCARD_XPATH_NODE (wildcardXPath pre none) = some pre.length :=
    find_wildcard plain []
  have before : (wildcardXPath pre none).take pre.length = pre := by
    unfold wildcardXPath
    rw [List.append_assoc, List.take_left]
  unfold matchCandidates
  rw [located]
  dsimp only
  rw [before]
  cases passing (evaluateXPath node pre) <;> rfl

/-- The listed paths that have the path of a node in them. -/
def candidates (checker : ConstraintChecker) (node : Location) (found : Located) (pre : Str) :
    List Str :=
  (((nodeAt checker node pre).map getAllSubnodes).getD []).filter fun listed =>
    Text.contains (XPath.toString found.location) listed

theorem mem_candidates {listed : Str} :
    listed ∈ candidates checker node found pre ↔ ∃ parent ∈ nodeAt checker node pre,
      listed ∈ getAllSubnodes parent ∧
        Text.contains (XPath.toString found.location) listed = true := by
  unfold candidates
  rw [List.mem_filter]
  cases nodeAt checker node pre with
  | none => simp
  | some parent => simp

theorem XPathMatchRegexHandle_eq (plain : NoWildcard pre) (rooted : pre ≠ [])
    (resolved : xpathPath node xpath = .ok path)
    (selected : select checker.root_config path = some found) (nonempty : re ≠ []) :
    XPathMatchRegexHandle checker node (matchArguments xpath pre re) =
      (keepMatching checker re (candidates checker node found pre).reverse).map .xpaths := by
  have isPath : xpath ≠ [] := by
    rintro rfl
    cases resolved
  have isWildcard : wildcardXPath pre none ≠ [] := withReferenceName_ne_nil
  obtain ⟨prePath, preResolved⟩ := exists_xpathPath node rooted
  have listed : matchCandidates checker node (wildcardXPath pre none) =
      .ok (((nodeAt checker node pre).map getAllSubnodes).getD []) := by
    have evaluated : passing (evaluateXPath node pre) = .ok prePath := preResolved
    have atPre : nodeAt checker node pre = select checker.root_config prePath := by
      unfold nodeAt
      rw [preResolved]
      rfl
    rw [matchCandidates_eq plain, evaluated, atPre]
    rfl
  have evaluated : passing (evaluateXPath node xpath) = .ok path := resolved
  simp only [XPathMatchRegexHandle, matchArguments, valueAt, Any.asString, List.length_cons,
    List.length_nil, List.getD_cons_zero, List.getD_cons_succ, bind, Except.bind, nonempty,
    isWildcard, isPath, listed, evaluated, selected, if_false, candidates]
  rw [if_neg (by decide)]
  cases keepMatching checker re _ <;> rfl

/-- Without a regular expression nothing is kept. -/
theorem XPathMatchRegexHandle_empty :
    XPathMatchRegexHandle checker node (matchArguments xpath pre []) = .ok (.xpaths []) := rfl

/-- The children of the root cannot be asked for: there is no path to evaluate. -/
theorem XPathMatchRegexHandle_rootless (nonempty : re ≠ []) :
    XPathMatchRegexHandle checker node (matchArguments xpath [] re) = .error (.raised .raised) := by
  have isWildcard : wildcardXPath [] none ≠ [] := withReferenceName_ne_nil
  have listed : matchCandidates checker node (wildcardXPath [] none) = .error (.raised .raised) :=
    rfl
  simp only [XPathMatchRegexHandle, matchArguments, valueAt, Any.asString, List.length_cons,
    List.length_nil, List.getD_cons_zero, List.getD_cons_succ, bind, Except.bind, nonempty,
    isWildcard, listed, if_false]
  exact if_neg (by decide)

/-- Nothing is to be returned without a regular expression exactly where nothing fits it. -/
theorem matchesNames_empty_iff :
    MatchesNames checker node found xpath pre [] ↔ PathsFitAsNames checker node found pre [] := by
  constructor
  · rintro ⟨xpaths, answered, members⟩
    cases answered
    refine ⟨fun impossible => absurd rfl impossible, ?_, fun impossible => absurd rfl impossible⟩
    intro parent isParent entry child below fits
    exact nomatch (members _).mpr ⟨parent, isParent, entry, child, rfl, below, fits⟩
  · intro fit
    refine ⟨[], XPathMatchRegexHandle_empty, fun listed => ⟨fun impossible => ?_, ?_⟩⟩
    · cases impossible
    rintro ⟨parent, isParent, entry, child, rfl, below, fits⟩
    exact absurd rfl (fit.complete parent isParent entry child below fits).1

/-- Paths that are returned for the children whose names match fit as these names do. -/
theorem pathsFit_of_matchesNames (plain : NoWildcard pre) (resolved : xpathPath node xpath = .ok path)
    (selected : select checker.root_config path = some found) (nonempty : re ≠ [])
    (matches_names : MatchesNames checker node found xpath pre re) :
    PathsFitAsNames checker node found pre re := by
  obtain ⟨xpaths, answered, members⟩ := matches_names
  have rooted : pre ≠ [] := by
    rintro rfl
    cases (XPathMatchRegexHandle_rootless nonempty).symm.trans answered
  rw [XPathMatchRegexHandle_eq plain rooted resolved selected nonempty] at answered
  have keeps : keepMatching checker re (candidates checker node found pre).reverse = .ok xpaths := by
    cases keeps : keepMatching checker re (candidates checker node found pre).reverse with
    | error reason =>
        rw [keeps] at answered
        cases answered
    | ok kept =>
        rw [keeps] at answered
        cases answered
        rfl
  have regular := regular_of_keepMatching keeps
  obtain ⟨kept, keepsAgain, kept_iff⟩ := keepMatching_ok regular
  cases keeps.symm.trans keepsAgain
  refine ⟨fun _ => rooted, ?_, ?_⟩
  · intro parent isParent entry child below fits
    have isKept := (members _).mpr ⟨parent, isParent, entry, child, rfl, below, fits⟩
    exact ⟨nonempty, ((kept_iff _).mp isKept).2⟩
  · intro _ parent isParent listed isListed inside
    have candidate : listed ∈ (candidates checker node found pre).reverse :=
      List.mem_reverse.mpr (mem_candidates.mpr ⟨parent, isParent, isListed, inside⟩)
    refine ⟨regular listed candidate, fun fits leads => ?_⟩
    obtain ⟨other, isOther, entry, child, rest⟩ :=
      (members listed).mp ((kept_iff listed).mpr ⟨candidate, fits, leads⟩)
    cases Option.mem_unique isOther isParent
    exact ⟨entry, child, rest⟩

theorem matchesNames_of_pathsFit (plain : NoWildcard pre) (resolved : xpathPath node xpath = .ok path)
    (selected : select checker.root_config path = some found) (nonempty : re ≠ [])
    (fit : PathsFitAsNames checker node found pre re) :
    MatchesNames checker node found xpath pre re := by
  have regular : ∀ listed ∈ (candidates checker node found pre).reverse,
      (checker.config_mngr.regexMatch re listed).isSome := by
    intro listed candidate
    obtain ⟨parent, isParent, isListed, inside⟩ :=
      mem_candidates.mp (List.mem_reverse.mp candidate)
    exact (fit.sound nonempty parent isParent listed isListed inside).1
  obtain ⟨kept, keeps, kept_iff⟩ := keepMatching_ok regular
  refine ⟨kept, ?_, fun listed => (kept_iff listed).trans ?_⟩
  · rw [XPathMatchRegexHandle_eq plain (fit.rooted nonempty) resolved selected nonempty, keeps]
    rfl
  · rw [List.mem_reverse, mem_candidates]
    constructor
    · rintro ⟨⟨parent, isParent, isListed, inside⟩, fits, leads⟩
      exact ⟨parent, isParent,
        (fit.sound nonempty parent isParent listed isListed inside).2 fits leads⟩
    · rintro ⟨parent, isParent, entry, child, rfl, below, fits⟩
      obtain ⟨_, pathFits, leads⟩ := fit.complete parent isParent entry child below fits
      exact ⟨⟨parent, isParent, childXPath_mem child, Text.contains_of_prefix below⟩, pathFits,
        leads⟩

/-- Exactly the children whose names match are returned where their paths match as their names
do. -/
theorem matchesNames_iff (checker : ConstraintChecker) (node : Location)
    {xpath pre re path : Str} {found : Located} (plain : NoWildcard pre)
    (resolved : xpathPath node xpath = .ok path)
    (selected : select checker.root_config path = some found) :
    MatchesNames checker node found xpath pre re ↔ PathsFitAsNames checker node found pre re := by
  by_cases empty : re = []
  · subst empty
    exact matchesNames_empty_iff
  · exact ⟨pathsFit_of_matchesNames plain resolved selected empty,
      matchesNames_of_pathsFit plain resolved selected empty⟩

end Handle

end FlexConfig.Constraint

namespace FlexConfig.Sample

open Constraint XPath

/-- The same with regular expressions that match themselves only. -/
def literalChecker : ConstraintChecker :=
  { portChecker with
    config_mngr := { portChecker.config_mngr with
      regexMatch := fun pattern text => some (pattern == text) } }

/-- The entry of the container. -/
def eth1 : Located := ⟨["port".toList, "eth1".toList], .leaf "up".toList⟩

theorem eth1_resolved : xpathPath [] "/port/eth1".toList = .ok "/port/eth1".toList := by
  have evaluated : evaluateXPath [] "/port/eth1".toList = .ok "/port/eth1".toList := by
    decide +kernel
  exact congrArg passing evaluated

/-- A child whose name matches is not returned. -/
theorem key_name_not_matched :
    xpathPath [] "/port/eth1".toList = .ok "/port/eth1".toList ∧
      select literalChecker.root_config "/port/eth1".toList = some eth1 ∧
      ¬ MatchesNames literalChecker [] eth1 "/port/eth1".toList "/port".toList "eth1".toList := by
  have selected : select literalChecker.root_config "/port/eth1".toList = some eth1 := by
    decide +kernel
  refine ⟨eth1_resolved, selected, ?_⟩
  rintro ⟨xpaths, answered, members⟩
  rw [XPathMatchRegexHandle_eq (by decide) (by decide) eth1_resolved selected (by decide)] at answered
  have regular : ∀ listed ∈ (candidates literalChecker [] eth1 "/port".toList).reverse,
      (literalChecker.config_mngr.regexMatch "eth1".toList listed).isSome := fun _ _ => rfl
  obtain ⟨kept, keeps, kept_iff⟩ := keepMatching_ok regular
  rw [keeps] at answered
  cases answered
  have port : nodeAt literalChecker [] "/port".toList =
      some ⟨["port".toList], .composite [("eth1".toList, .leaf "up".toList)]⟩ := by
    decide +kernel
  have wanted := (members "/port/eth1".toList).mpr
    ⟨_, port, _, List.mem_cons_self, rfl, by decide, rfl⟩
  have fits : some ("eth1".toList == "/port/eth1".toList) = some true :=
    ((kept_iff _).mp wanted).2.1
  exact absurd fits (by decide)

theorem whole_paths_matched :
    MatchesNames literalChecker [] eth1 "/port/eth1".toList "/port".toList "eth2".toList ↔
      PathsFitAsNames literalChecker [] eth1 "/port".toList "eth2".toList :=
  matchesNames_iff literalChecker [] (by decide) eth1_resolved (by decide +kernel)

end FlexConfig.Sample
