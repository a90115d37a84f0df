import FlexConfig.Tree.KeyTemplate
import FlexConfig.Tree.Refinement
import Mathlib.Data.List.Chain

/-! # Paths are read back

Tokens are joined to paths, paths are cut into tokens, and nodes are printed as paths; what one of
these routines writes, another one reads. Reading goes through `strtok`, which sees a text only up
to its first NUL, while joining and printing know of no end but the end of the text. So the
routines are inverse to each other exactly for tokens and names without a NUL (`paths_inverse`).
-/

namespace FlexConfig.XPath

open Heap Text

section Joining

variable {tokens : List Str}

theorem IsToken.getLast?_ne {token : Str} (proper : IsToken token) (xpath : Str) :
    (xpath ++ token).getLast? ≠ some '/' := by
  intro last
  rw [List.getLast?_append_of_ne_nil _ proper.1] at last
  exact proper.2 (List.mem_of_getLast? last)

theorem pieces_join (proper : ∀ token ∈ tokens, IsToken token) : pieces '/' (join tokens) = tokens := by
  rw [pieces, split_join fun token member => (proper token member).2,
    List.filter_cons_of_neg (by simp)]
  exact List.filter_eq_self.mpr fun token member => decide_eq_true (proper token member).1

/-- Behind a path that does not end in a separator every token is joined by one. -/
theorem foldl_eq_append_join (proper : ∀ token ∈ tokens, IsToken token) {xpath : Str}
    (last : xpath.getLast? ≠ some '/') :
    tokens.foldl (fun xpath token =>
      (if xpath.getLast? = some '/' then xpath else xpath ++ SEPARATOR) ++ token) xpath =
        xpath ++ join tokens := by
  induction tokens generalizing xpath with
  | nil => exact (List.append_nil xpath).symm
  | cons first rest ih =>
      obtain ⟨properFirst, properRest⟩ := List.forall_mem_cons.mp proper
      rw [List.foldl_cons, if_neg last, ih properRest (properFirst.getLast?_ne _), join, join,
        List.flatMap_cons, List.append_assoc, List.append_assoc, List.append_assoc]

/-- Tokens are joined each behind a separator; where there are none the path is the root. -/
theorem mergeTokens_eq (proper : ∀ token ∈ tokens, IsToken token) :
    mergeTokens tokens = if tokens = [] then ROOT_TOKEN else join tokens := by
  cases tokens with
  | nil => rfl
  | cons first rest =>
      obtain ⟨properFirst, properRest⟩ := List.forall_mem_cons.mp proper
      rw [if_neg (List.cons_ne_nil _ _), mergeTokens, List.foldl_cons]
      exact foldl_eq_append_join properRest (properFirst.getLast?_ne ROOT_TOKEN)

theorem pieces_mergeTokens (proper : ∀ token ∈ tokens, IsToken token) :
    pieces '/' (mergeTokens tokens) = tokens := by
  rw [mergeTokens_eq proper]
  split
  · next empty =>
      rw [empty]
      rfl
  · exact pieces_join proper

theorem mem_join_iff {c : Char} (differs : c ≠ '/') :
    c ∈ join tokens ↔ ∃ token ∈ tokens, c ∈ token := by
  rw [join, List.mem_flatMap]
  refine exists_congr fun token => and_congr_right fun _ => ?_
  rw [SEPARATOR, List.mem_append]
  exact or_iff_right fun here => differs (List.mem_singleton.mp here)

theorem nul_mem_mergeTokens_iff (proper : ∀ token ∈ tokens, IsToken token) :
    NUL ∈ mergeTokens tokens ↔ ∃ token ∈ tokens, NUL ∈ token := by
  rw [mergeTokens_eq proper]
  split
  · next empty =>
      rw [empty]
      exact iff_of_false (by decide) fun ⟨_, impossible, _⟩ => List.not_mem_nil impossible
  · exact mem_join_iff (by decide)

/-- Joined tokens are read back where none of them has a NUL. -/
theorem parse_mergeTokens_iff (proper : ∀ token ∈ tokens, IsToken token) :
    parse (mergeTokens tokens) = tokens ↔ ∀ token ∈ tokens, NUL ∉ token := by
  constructor
  · intro same token member
    rw [← same] at member
    exact nul_notMem_of_mem_parse member
  · intro clean
    have absent : NUL ∉ mergeTokens tokens := by
      rw [nul_mem_mergeTokens_iff proper]
      exact fun ⟨token, member, inside⟩ => clean token member inside
    rw [parse_of_notMem absent, pieces_mergeTokens proper]

end Joining

section Canonical

/-- A path in canonical form begins with a separator, has no two in a row, and ends in one only if
it is the root. -/
structure IsCanonical (xpath : Str) : Prop where
  starts : xpath.head? = some '/'
  single : xpath.IsChain fun c next => ¬ (c = '/' ∧ next = '/')
  ends : xpath.getLast? = some '/' → xpath = ROOT_TOKEN

variable {tokens : List Str}

theorem isChain_token {token : Str} (absent : '/' ∉ token) :
    ('/' :: token).IsChain fun c next => ¬ (c = '/' ∧ next = '/') := by
  refine List.Pairwise.isChain (List.pairwise_cons.mpr ⟨fun next member both => ?_, ?_⟩)
  · exact absent (both.2 ▸ member)
  · exact List.pairwise_of_forall_mem_list fun c _ next member both => absent (both.2 ▸ member)

theorem isChain_join (proper : ∀ token ∈ tokens, IsToken token) :
    (join tokens).IsChain fun c next => ¬ (c = '/' ∧ next = '/') := by
  induction tokens with
  | nil => exact List.IsChain.nil
  | cons first rest ih =>
      obtain ⟨properFirst, properRest⟩ := List.forall_mem_cons.mp proper
      have unfolded : join (first :: rest) = ('/' :: first) ++ join rest := rfl
      rw [unfolded, List.isChain_append]
      refine ⟨isChain_token properFirst.2, ih properRest, fun c last next _ both => ?_⟩
      exact properFirst.getLast?_ne ['/'] (both.1 ▸ last)

theorem getLast?_join_ne (proper : ∀ token ∈ tokens, IsToken token) :
    (join tokens).getLast? ≠ some '/' := by
  induction tokens using List.reverseRecOn with
  | nil => exact fun impossible => nomatch impossible
  | append_singleton before token ih =>
      have properLast := proper token (List.mem_append_right _ (List.mem_singleton_self token))
      have unfolded : join (before ++ [token]) = (join before ++ SEPARATOR) ++ token := by
        rw [join, List.flatMap_append, List.flatMap_singleton, List.append_assoc]
        rfl
      rw [unfolded]
      exact properLast.getLast?_ne _

theorem isCanonical_mergeTokens (proper : ∀ token ∈ tokens, IsToken token) :
    IsCanonical (mergeTokens tokens) := by
  rw [mergeTokens_eq proper]
  cases tokens with
  | nil => exact ⟨rfl, List.IsChain.singleton _, fun _ => rfl⟩
  | cons first rest =>
      rw [if_neg (List.cons_ne_nil _ _)]
      exact ⟨rfl, isChain_join proper, fun last => absurd last (getLast?_join_ne proper)⟩

end Canonical

section Printing

/-- A name that is printed behind a separator. -/
structure IsPathName (name : Str) : Prop where
  token : IsToken name
  plain : ¬ IsSubscript name

variable {location : Location}

theorem toString_eq_join (names : ∀ name ∈ location, IsPathName name) :
    toString location = join location :=
  List.flatMap_congr fun name member =>
    printName_of_not_subscript (names name member).token (names name member).plain

/-- A printed path is the path of the names joined, but for the root. -/
theorem toString_eq_mergeTokens (names : ∀ name ∈ location, IsPathName name)
    (below : location ≠ []) : toString location = mergeTokens location := by
  rw [mergeTokens_eq fun name member => (names name member).token, if_neg below,
    toString_eq_join names]

/-- A printed path is read back where no name has a NUL. -/
theorem parse_toString_iff (names : ∀ name ∈ location, IsPathName name) :
    parse (toString location) = location ↔ ∀ name ∈ location, NUL ∉ name := by
  cases location with
  | nil => exact iff_of_true rfl fun _ impossible => absurd impossible List.not_mem_nil
  | cons first rest =>
      rw [toString_eq_mergeTokens names (List.cons_ne_nil _ _)]
      exact parse_mergeTokens_iff fun name member => (names name member).token

end Printing

/-- Joining, reading and printing are inverse to each other as far as no NUL is in a name. What was
read has none, so that its canonical form is read back in any case. -/
theorem paths_inverse {tokens : List Str} (proper : ∀ token ∈ tokens, IsToken token) (xpath : Str)
    {store : Store} {root : Placed} (stored : Stored store ROOT_TOKEN none root)
    {node : Ref × Located} (member : node ∈ (root.address, ⟨[], root.shape⟩) :: root.visits [])
    (names : ∀ name ∈ node.2.location, IsPathName name) {fuel : Nat}
    (enough : node.2.location.length + 1 < fuel) :
    (parse (mergeTokens tokens) = tokens ↔ ∀ token ∈ tokens, NUL ∉ token) ∧
      (IsCanonical (mergeTokens (parse xpath)) ∧
        parse (mergeTokens (parse xpath)) = parse xpath ∧
        mergeTokens (parse (mergeTokens (parse xpath))) =
          mergeTokens (parse xpath)) ∧
      ∃ printed, toStringStored fuel node.1 store = some printed ∧
        (parse printed = node.2.location ↔ ∀ name ∈ node.2.location, NUL ∉ name) ∧
        (node.2.location ≠ [] → printed = mergeTokens node.2.location) := by
  have properRead : ∀ token ∈ parse xpath, IsToken token :=
    fun _ inside => isToken_of_mem_parse inside
  have again : parse (mergeTokens (parse xpath)) = parse xpath :=
    (parse_mergeTokens_iff properRead).mpr fun _ inside => nul_notMem_of_mem_parse inside
  refine ⟨parse_mergeTokens_iff proper, ⟨isCanonical_mergeTokens properRead, again,
    congrArg mergeTokens again⟩, ?_⟩
  exact ⟨toString node.2.location, toStringStored_eq stored member enough,
    parse_toString_iff names, toString_eq_mergeTokens names⟩

end FlexConfig.XPath

namespace FlexConfig.Sample

open XPath

/-- A token with a NUL in it is read only up to there. -/
theorem token_cut_at_nul :
    IsToken ['a', Text.NUL, 'b'] ∧
      parse (mergeTokens [['a', Text.NUL, 'b']]) ≠ [['a', Text.NUL, 'b']] := by
  refine ⟨⟨by decide, by decide⟩, by decide +kernel⟩

/-- The nodes of a tree with one leaf. -/
def storedLeaf : Store :=
  [⟨"/".toList, none, none, .composite [("x".toList, 1)]⟩, ⟨"x".toList, some 0, none, .leaf "1".toList⟩]

theorem stored_leaf :
    Stored storedLeaf ROOT_TOKEN none (.composite 0 [("x".toList, .leaf 1 "1".toList)]) := by
  refine ⟨⟨none, rfl⟩, by decide, ⟨none, rfl⟩, trivial⟩

theorem leaf_path_read_back :
    (parse (mergeTokens ["a".toList, "b".toList]) = ["a".toList, "b".toList] ↔
        ∀ token ∈ ["a".toList, "b".toList], Text.NUL ∉ token) ∧
      (IsCanonical (mergeTokens (parse "//a/".toList)) ∧
        parse (mergeTokens (parse "//a/".toList)) = parse "//a/".toList ∧
        mergeTokens (parse (mergeTokens (parse "//a/".toList))) =
          mergeTokens (parse "//a/".toList)) ∧
      ∃ printed, toStringStored 3 1 storedLeaf = some printed ∧
        (parse printed = ["x".toList] ↔ ∀ name ∈ ["x".toList], Text.NUL ∉ name) ∧
        (["x".toList] ≠ [] → printed = mergeTokens ["x".toList]) := by
  have tokens : ∀ token ∈ ["a".toList, "b".toList], IsToken token := by
    unfold IsToken
    decide
  have names : ∀ name ∈ ["x".toList], IsPathName name := by
    intro name member
    rw [List.mem_singleton.mp member]
    exact ⟨⟨by decide, by decide⟩, by unfold IsSubscript; decide⟩
  have isNode : ((1, ⟨["x".toList], .leaf "1".toList⟩) : Heap.Ref × Located) ∈
      [((0, ⟨[], .composite [("x".toList, .leaf "1".toList)]⟩) : Heap.Ref × Located),
        (1, ⟨["x".toList], .leaf "1".toList⟩)] := List.mem_cons_of_mem _ List.mem_cons_self
  exact paths_inverse tokens "//a/".toList stored_leaf isNode names (by decide)

end FlexConfig.Sample
