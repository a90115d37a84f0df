import FlexConfig.Tree.XPath

/-! # What a path selects

A path is followed by searching each of its tokens among all nodes below the one
reached so far. A child of that name always wins (`findByName_child`), so that a path
that was printed from a node selects this node, unless it is cut off at a NUL in a name
(`select_toString_iff`). Where there is no such child the search strays to a node further down
(`Finds`), and a path that does not exist selects a node unless a token is named by no node below
(`selects_only_at_iff`).
-/

namespace FlexConfig.XPath

open Node Text

section Find

variable {key : Str}

theorem visit_same {found : Option Located} {location : Location} {node : Node} :
    NodeFinder.visit key found ⟨location ++ [key], node⟩ =
      (false, some ⟨location ++ [key], node⟩) := if_pos (nameOf_concat location key)

theorem visit_other {name : Str} (differs : name ≠ key) {found : Option Located}
    {location : Location} {node : Node} :
    NodeFinder.visit key found ⟨location ++ [name], node⟩ = (true, found) :=
  if_neg ((nameOf_concat location name).symm ▸ differs)

theorem acceptChildren_same {location : Location} {node : Node} {rest : List (Str × Node)}
    {found : Option Located} :
    acceptChildren (NodeFinder.visit key) location ((key, node) :: rest) found =
      some ⟨location ++ [key], node⟩ := by
  rw [acceptChildren, visit_same]

theorem acceptChildren_other {name : Str} (differs : name ≠ key) {location : Location} {node : Node}
    {rest : List (Str × Node)} {found : Option Located} :
    acceptChildren (NodeFinder.visit key) location ((name, node) :: rest) found =
      acceptChildren (NodeFinder.visit key) location rest
        (accept (NodeFinder.visit key) (location ++ [name]) node found) := by
  rw [acceptChildren, visit_other differs]

/-- The search among siblings ends at the one that has the name, whatever has been found
below those before it. -/
theorem acceptChildren_child {location : Location} {entries : List (Str × Node)} {child : Node}
    (isChild : Keyed.find key entries = some child) (found : Option Located) :
    acceptChildren (NodeFinder.visit key) location entries found =
      some ⟨location ++ [key], child⟩ := by
  induction entries generalizing found with
  | nil => cases isChild
  | cons entry rest ih =>
      obtain ⟨name, node⟩ := entry
      rw [Keyed.find_cons] at isChild
      by_cases same : name = key
      · rw [if_pos same.symm] at isChild
        cases isChild
        rw [same]
        exact acceptChildren_same
      · rw [if_neg (Ne.symm same)] at isChild
        rw [acceptChildren_other same]
        exact ih isChild _

/-- A child of the name is found. -/
theorem findByName_child {start : Located} {child : Node}
    (isChild : start.node.findNode key = some child) :
    findByName key start = some ⟨start.location ++ [key], child⟩ := by
  obtain ⟨location, node⟩ := start
  cases node with
  | leaf value => cases isChild
  | composite entries => exact acceptChildren_child isChild none

mutual

/-- What is found below a node replaces what was found before. -/
theorem accept_or : ∀ (location : Location) (node : Node) (found : Option Located),
    accept (NodeFinder.visit key) location node found =
      (accept (NodeFinder.visit key) location node none).or found
  | _, .leaf _, _ => rfl
  | location, .composite entries, found => acceptChildren_or location entries found

theorem acceptChildren_or : ∀ (location : Location) (entries : List (Str × Node))
    (found : Option Located),
    acceptChildren (NodeFinder.visit key) location entries found =
      (acceptChildren (NodeFinder.visit key) location entries none).or found
  | _, [], _ => rfl
  | location, (name, node) :: rest, found => by
      by_cases same : name = key
      · rw [same, acceptChildren_same, acceptChildren_same]
        rfl
      · rw [acceptChildren_other same, acceptChildren_other same,
          acceptChildren_or location rest (accept _ _ node found),
          acceptChildren_or location rest (accept _ _ node none),
          accept_or (location ++ [name]) node found, Option.or_assoc]

end

theorem acceptChildren_cons {name : Str} (differs : name ≠ key) (location : Location) (node : Node)
    (rest : List (Str × Node)) :
    acceptChildren (NodeFinder.visit key) location ((name, node) :: rest) none =
      (acceptChildren (NodeFinder.visit key) location rest none).or
        (findByName key ⟨location ++ [name], node⟩) := by
  rw [acceptChildren_other differs, acceptChildren_or]
  rfl

mutual

/-- Nothing is found where no node has the name. -/
theorem accept_eq_none_iff : ∀ (location : Location) (node : Node),
    accept (NodeFinder.visit key) location node none = none ↔
      ∀ visited ∈ preorder location node, nameOf visited.location ≠ key
  | _, .leaf _ => by simp [accept, preorder]
  | location, .composite entries => acceptChildren_eq_none_iff location entries

theorem acceptChildren_eq_none_iff : ∀ (location : Location) (entries : List (Str × Node)),
    acceptChildren (NodeFinder.visit key) location entries none = none ↔
      ∀ visited ∈ preorderChildren location entries, nameOf visited.location ≠ key
  | _, [] => by simp [acceptChildren, preorderChildren]
  | location, (name, node) :: rest => by
      have here : (∀ visited ∈ preorderChildren location ((name, node) :: rest),
          nameOf visited.location ≠ key) ↔
          name ≠ key ∧ (∀ visited ∈ preorder (location ++ [name]) node,
            nameOf visited.location ≠ key) ∧
              ∀ visited ∈ preorderChildren location rest, nameOf visited.location ≠ key := by
        rw [preorderChildren, List.cons_append, List.forall_mem_cons, List.forall_mem_append,
          nameOf_concat]
      rw [here]
      by_cases same : name = key
      · rw [same, acceptChildren_same]
        simp
      · rw [acceptChildren_cons same, Option.or_eq_none_iff, and_comm, findByName,
          accept_eq_none_iff (location ++ [name]) node, acceptChildren_eq_none_iff location rest]
        simp only [ne_eq, same, not_false_eq_true, true_and]

end

/-- No node below a node has a name. -/
def NoneBelow (key : Str) (start : Located) : Prop :=
  ∀ visited ∈ start.node.preorder start.location, nameOf visited.location ≠ key

theorem findByName_eq_none_iff {start : Located} :
    findByName key start = none ↔ NoneBelow key start :=
  accept_eq_none_iff start.location start.node

/-- What a search for a name comes to: the child of that name, or what it comes to below
the last of the children that have such a node below them. -/
inductive Finds (key : Str) : Located → Located → Prop where
  | child {start : Located} {node : Node} : start.node.findNode key = some node →
      Finds key start ⟨start.location ++ [key], node⟩
  | lower {location : Location} {before behind : List (Str × Node)} {name : Str} {node : Node}
      {found : Located} : Keyed.find key (before ++ (name, node) :: behind) = none →
        NoneBelow key ⟨location, .composite behind⟩ → Finds key ⟨location ++ [name], node⟩ found →
          Finds key ⟨location, .composite (before ++ (name, node) :: behind)⟩ found

mutual

theorem finds_of_findByName : ∀ (location : Location) (node : Node) {found : Located},
    findByName key ⟨location, node⟩ = some found → Finds key ⟨location, node⟩ found
  | _, .leaf _, _, impossible => by cases impossible
  | location, .composite entries, found, finds => by
      cases isChild : Keyed.find key entries with
      | some child =>
          have wins : findByName key ⟨location, .composite entries⟩ = _ := findByName_child isChild
          cases wins.symm.trans finds
          exact .child isChild
      | none =>
          have others : ∀ entry ∈ entries, entry.1 ≠ key := by
            intro entry member same
            have known : key ∈ Keyed.keys entries := List.mem_map.mpr ⟨entry, member, same⟩
            rw [← Keyed.find_isSome_iff, isChild] at known
            cases known
          obtain ⟨before, name, node, behind, rfl, nothing, further⟩ :=
            finds_of_acceptChildren location entries others finds
          exact .lower isChild nothing further

theorem finds_of_acceptChildren : ∀ (location : Location) (entries : List (Str × Node))
    {found : Located}, (∀ entry ∈ entries, entry.1 ≠ key) →
    acceptChildren (NodeFinder.visit key) location entries none = some found →
    ∃ before name node behind, entries = before ++ (name, node) :: behind ∧
      NoneBelow key ⟨location, .composite behind⟩ ∧ Finds key ⟨location ++ [name], node⟩ found
  | _, [], _, _, impossible => by cases impossible
  | location, (name, node) :: rest, found, others, finds => by
      obtain ⟨differs, othersRest⟩ := List.forall_mem_cons.mp others
      rw [acceptChildren_cons differs, Option.or_eq_some_iff] at finds
      rcases finds with later | ⟨nothing, here⟩
      · obtain ⟨before, last, child, behind, rfl, noneBehind, further⟩ :=
          finds_of_acceptChildren location rest othersRest later
        exact ⟨(name, node) :: before, last, child, behind, rfl, noneBehind, further⟩
      · exact ⟨[], name, node, rest, rfl, (acceptChildren_eq_none_iff location rest).mp nothing,
          finds_of_findByName (location ++ [name]) node here⟩

end

theorem findByName_of_finds {start found : Located} (finds : Finds key start found) :
    findByName key start = some found := by
  induction finds with
  | child isChild => exact findByName_child isChild
  | @lower location before behind name node found absent nothing _ ih =>
      have others : ∀ entry ∈ before ++ (name, node) :: behind, entry.1 ≠ key := by
        intro entry member same
        have known : key ∈ Keyed.keys (before ++ (name, node) :: behind) :=
          List.mem_map.mpr ⟨entry, member, same⟩
        rw [← Keyed.find_isSome_iff, absent] at known
        cases known
      change acceptChildren (NodeFinder.visit key) location _ none = _
      clear absent
      induction before with
      | nil =>
          have nothingFound := (acceptChildren_eq_none_iff location behind).mpr nothing
          rw [List.nil_append, acceptChildren_cons (others _ List.mem_cons_self), nothingFound, ih]
          rfl
      | cons entry rest restIh =>
          obtain ⟨differs, othersRest⟩ := List.forall_mem_cons.mp others
          obtain ⟨first, child⟩ := entry
          rw [List.cons_append, acceptChildren_cons differs, restIh othersRest]
          rfl

theorem findByName_eq_some_iff {start found : Located} :
    findByName key start = some found ↔ Finds key start found :=
  ⟨finds_of_findByName start.location start.node, findByName_of_finds⟩

/-- A node that is found is below, and further below where it is no child. -/
theorem Finds.length {start found : Located} (finds : Finds key start found) :
    start.location.length + 1 ≤ found.location.length ∧
      (start.node.findNode key = none → start.location.length + 2 ≤ found.location.length) := by
  induction finds with
  | child isChild =>
      rw [isChild, List.length_append]
      exact ⟨le_rfl, fun impossible => (by cases impossible)⟩
  | @lower location _ _ _ _ found _ _ _ ih =>
      have deeper : location.length + 2 ≤ found.location.length := by
        have child := ih.1
        simp only [List.length_append, List.length_singleton] at child
        exact child
      exact ⟨Nat.le_of_succ_le deeper, fun _ => deeper⟩

theorem Finds.isPrefix {start found : Located} (finds : Finds key start found) :
    start.location <+: found.location := by
  induction finds with
  | child _ => exact List.prefix_append _ _
  | lower _ _ _ ih => exact (List.prefix_append _ _).trans ih

/-- What is found below a place that has the name is found at the child of that name. -/
theorem Finds.child_of_prefix {start found : Located} (finds : Finds key start found)
    (below : start.location ++ [key] <+: found.location) :
    ∃ node, start.node.findNode key = some node ∧ found = ⟨start.location ++ [key], node⟩ := by
  cases finds with
  | child isChild => exact ⟨_, isChild, rfl⟩
  | @lower location before behind name node _ absent _ further =>
      have same : location ++ [key] = location ++ [name] := by
        have both := List.prefix_of_prefix_length_le below further.isPrefix (by simp)
        exact both.eq_of_length (by simp)
      have isName : key = name := List.singleton_inj.mp (List.append_cancel_left same)
      have known : key ∈ Keyed.keys (before ++ (name, node) :: behind) := by
        rw [isName]
        simp [Keyed.keys]
      rw [← Keyed.find_isSome_iff, absent] at known
      cases known

end Find

section Follow

/-- Tokens that stand for names: none has a subscript, and the last is not `value`. -/
structure Plain (tokens : List Str) : Prop where
  unsubscripted : ∀ token ∈ tokens, '[' ∉ token ∧ ']' ∉ token
  notValue : tokens.getLast? ≠ some "value".toList

theorem Plain.tail {token : Str} {rest : List Str} (plain : Plain (token :: rest)) : Plain rest := by
  refine ⟨(List.forall_mem_cons.mp plain.unsubscripted).2, fun last => plain.notValue ?_⟩
  rw [List.getLast?_cons, last]
  rfl

theorem find_bracket_eq_none {token : Str} (absent : '[' ∉ token) :
    Text.find SUBSCRIPT_LEFT_PARENTHESIS token = none := by
  have outside : ¬ Text.contains SUBSCRIPT_LEFT_PARENTHESIS token = true := by
    rw [Text.contains_iff]
    exact fun inside => absent (inside.subset List.mem_cons_self)
  exact Option.not_isSome_iff_eq_none.mp outside

/-- Search for one token after the other. -/
def search : List Str → Located → Option Located
  | [], visiting => some visiting
  | token :: rest, visiting => (findByName token visiting).bind (search rest)

/-- The tokens that are searched for: all of them, but a last `value`. -/
def sought (tokens : List Str) : List Str :=
  if tokens.getLast? = some "value".toList then tokens.dropLast else tokens

theorem sought_of_last {tokens : List Str} (last : tokens.getLast? ≠ some "value".toList) :
    sought tokens = tokens := if_neg last

theorem sought_concat_value (tokens : List Str) : sought (tokens ++ ["value".toList]) = tokens := by
  rw [sought, List.getLast?_concat, if_pos rfl, List.dropLast_concat]

theorem selectTokens_eq {tokens : List Str} (unsubscripted : ∀ token ∈ tokens, '[' ∉ token)
    (start : Located) : selectTokens tokens start = search (sought tokens) start := by
  induction tokens generalizing start with
  | nil => rfl
  | cons token rest ih =>
      obtain ⟨here, others⟩ := List.forall_mem_cons.mp unsubscripted
      by_cases ends : token = "value".toList ∧ rest = []
      · rw [selectTokens, if_pos ends, ends.1, ends.2]
        rfl
      · have split : sought (token :: rest) = token :: sought rest := by
          cases rest with
          | nil => exact if_neg fun last => ends ⟨Option.some.inj last, rfl⟩
          | cons second more =>
              unfold sought
              rw [List.getLast?_cons_cons]
              split <;> rfl
        rw [selectTokens, if_neg ends, find_bracket_eq_none here, split, search]
        exact Option.bind_congr fun next _ => ih others next

theorem search_append (tokens rest : List Str) (start : Located) :
    search (tokens ++ rest) start = (search tokens start).bind (search rest) := by
  induction tokens generalizing start with
  | nil => rfl
  | cons token others ih =>
      rw [List.cons_append, search, search, Option.bind_assoc]
      exact Option.bind_congr fun next _ => ih next

/-- Tokens that lead from child to child are followed. -/
theorem search_of_get {tokens : List Str} {start : Located} {node : Node}
    (leads : start.node.get tokens = some node) :
    search tokens start = some ⟨start.location ++ tokens, node⟩ := by
  induction tokens generalizing start with
  | nil =>
      cases leads
      rw [List.append_nil]
      rfl
  | cons token rest ih =>
      obtain ⟨child, isChild, further⟩ := Option.bind_eq_some_iff.mp leads
      have found : search rest ⟨start.location ++ [token], child⟩ = _ := ih further
      rw [search, findByName_child isChild, Option.bind_some, found, List.append_assoc]
      rfl

theorem selectTokens_of_get {tokens : List Str} (plain : Plain tokens) {start : Located}
    {node : Node} (leads : start.node.get tokens = some node) :
    selectTokens tokens start = some ⟨start.location ++ tokens, node⟩ := by
  rw [selectTokens_eq fun token member => (plain.unsubscripted token member).1,
    sought_of_last plain.notValue, search_of_get leads]

theorem search_isPrefix {tokens : List Str} {start found : Located}
    (searched : search tokens start = some found) : start.location <+: found.location := by
  induction tokens generalizing start with
  | nil =>
      cases searched
      exact List.prefix_rfl
  | cons token rest ih =>
      obtain ⟨next, finds, further⟩ := Option.bind_eq_some_iff.mp searched
      exact (findByName_eq_some_iff.mp finds).isPrefix.trans (ih further)

/-- A search that comes to a node below the place at the tokens has gone through that place. -/
theorem get_of_search {tokens rest : List Str} {start found : Located}
    (searched : search (tokens ++ rest) start = some found)
    (below : start.location ++ tokens <+: found.location) :
    ∃ node, start.node.get tokens = some node ∧
      search rest ⟨start.location ++ tokens, node⟩ = some found := by
  induction tokens generalizing start with
  | nil =>
      refine ⟨start.node, rfl, ?_⟩
      rw [List.append_nil]
      exact searched
  | cons token others ih =>
      obtain ⟨next, finds, further⟩ := Option.bind_eq_some_iff.mp searched
      have isNext := findByName_eq_some_iff.mp finds
      rw [List.append_cons] at below
      have through : start.location ++ [token] <+: next.location :=
        List.prefix_of_prefix_length_le ((List.prefix_append _ _).trans below) (search_isPrefix further)
          (by simpa using isNext.length.1)
      obtain ⟨child, isChild, rfl⟩ := isNext.child_of_prefix through
      obtain ⟨node, leads, later⟩ := ih further below
      refine ⟨node, ?_, ?_⟩
      · rw [Node.get, isChild]
        exact leads
      · rw [List.append_cons]
        exact later

/-- A search for tokens comes to the place at them only from child to child. -/
theorem get_of_search_at {tokens : List Str} {start found : Located}
    (searched : search tokens start = some found)
    (isThere : found.location = start.location ++ tokens) :
    start.node.get tokens = some found.node := by
  have whole : search (tokens ++ []) start = some found := by
    rw [List.append_nil]
    exact searched
  obtain ⟨node, leads, rest⟩ := get_of_search whole (by rw [isThere])
  cases rest
  exact leads

/-- Following tokens ends at one that no node below the one reached is named by. -/
inductive Lost : Located → List Str → Prop where
  | here {start : Located} {token : Str} {rest : List Str} :
      NoneBelow token start → Lost start (token :: rest)
  | further {start next : Located} {token : Str} {rest : List Str} :
      Finds token start next → Lost next rest → Lost start (token :: rest)

theorem search_eq_none_iff {tokens : List Str} {start : Located} :
    search tokens start = none ↔ Lost start tokens := by
  induction tokens generalizing start with
  | nil => exact ⟨fun impossible => (by cases impossible), fun lost => (by cases lost)⟩
  | cons token rest ih =>
      rw [search]
      cases found : findByName token start with
      | none => exact ⟨fun _ => .here (findByName_eq_none_iff.mp found), fun _ => rfl⟩
      | some next =>
          rw [Option.bind_some, ih]
          refine ⟨fun lost => .further (findByName_eq_some_iff.mp found) lost, fun lost => ?_⟩
          cases lost with
          | here nothing => cases (findByName_eq_none_iff.mpr nothing).symm.trans found
          | further finds lost =>
              cases (findByName_eq_some_iff.mpr finds).symm.trans found
              exact lost

end Follow

section Select

/-- A name that is read back from a path as it was printed, and searched for. -/
structure IsPlainName (name : Str) : Prop where
  token : IsToken name
  unsubscripted : '[' ∉ name ∧ ']' ∉ name
  notValue : name ≠ "value".toList

instance (name : Str) : Decidable (IsPlainName name) :=
  decidable_of_iff ((name ≠ [] ∧ '/' ∉ name) ∧ ('[' ∉ name ∧ ']' ∉ name) ∧ name ≠ "value".toList)
    ⟨fun holds => ⟨holds.1, holds.2.1, holds.2.2⟩,
      fun plain => ⟨plain.token, plain.unsubscripted, plain.notValue⟩⟩

theorem plain_of_names {location : Location} (names : ∀ name ∈ location, IsPlainName name) :
    Plain location := by
  refine ⟨fun name member => (names name member).unsubscripted, fun last => ?_⟩
  exact (names _ (List.mem_of_getLast? last)).notValue rfl

/-- The names of a place have a NUL, and the place is come to all the same: the names before the
first with a NUL lead from child to child, and the search for the beginning of that one, which is
not empty and not `value`, comes to the place. -/
def FoundByBeginning (root : Node) (names : Location) (node : Node) : Prop :=
  ∃ above name below parent, names = above ++ name :: below ∧ (∀ upper ∈ above, NUL ∉ upper) ∧
    NUL ∈ name ∧ (c_str name ≠ [] ∧ c_str name ≠ "value".toList) ∧
      root.get above = some parent ∧ Finds (c_str name) ⟨above, parent⟩ ⟨names, node⟩

/-- The first name with a NUL is where it is. -/
theorem first_with_nul {above above' below below' : Location} {name name' : Str}
    (same : above ++ name :: below = above' ++ name' :: below') (clean : ∀ upper ∈ above, NUL ∉ upper)
    (clean' : ∀ upper ∈ above', NUL ∉ upper) (inside : NUL ∈ name) (inside' : NUL ∈ name') :
    above = above' ∧ name = name' := by
  induction above generalizing above' with
  | nil =>
      cases above' with
      | nil => exact ⟨rfl, (List.cons.inj same).1⟩
      | cons first rest =>
          have isFirst : name = first := (List.cons.inj same).1
          exact absurd (isFirst ▸ inside) (clean' first List.mem_cons_self)
  | cons first rest ih =>
      cases above' with
      | nil =>
          have isFirst : first = name' := (List.cons.inj same).1
          exact absurd (isFirst ▸ inside') (clean first List.mem_cons_self)
      | cons first' rest' =>
          obtain ⟨isFirst, others⟩ := List.cons.inj same
          obtain ⟨isRest, isName⟩ := ih others (List.forall_mem_cons.mp clean).2
            (List.forall_mem_cons.mp clean').2
          exact ⟨by rw [isFirst, isRest], isName⟩

variable {root : Node} {xpath : Str}

/-- Tokens no more than the names of a place lead to it only where they are the names. -/
theorem not_search_of_shorter {tokens names : List Str} {node : Node} (upper : tokens <+: names)
    (shorter : tokens.length < names.length) :
    search tokens ⟨[], root⟩ ≠ some ⟨names, node⟩ := by
  intro searched
  have whole : search (tokens ++ []) ⟨[], root⟩ = some ⟨names, node⟩ := by
    rw [List.append_nil]
    exact searched
  obtain ⟨_, _, rest⟩ := get_of_search whole upper
  cases rest
  exact Nat.lt_irrefl _ shorter

/-- A path with a NUL is followed to the place at its pieces exactly where that place is found by
the beginning of a name. -/
theorem search_pieces_iff {names : Location} {node : Node} (cut : pieces '/' xpath = names)
    (inside : NUL ∈ xpath) :
    search (sought (parse xpath)) ⟨[], root⟩ = some ⟨names, node⟩ ↔
      FoundByBeginning root names node := by
  obtain ⟨above, name, below, split, clean, isHere, read⟩ := parse_of_mem inside
  rw [cut] at split
  have isPiece : name ∈ pieces '/' xpath := by
    rw [cut, split]
    exact List.mem_append_right _ List.mem_cons_self
  have apart : '/' ∉ c_str name := fun member =>
    (isToken_of_mem_pieces isPiece).2 ((c_str_isPrefix name).subset member)
  have upper : above <+: names := split ▸ List.prefix_append _ _
  have shorter : above.length < names.length := by
    rw [split, List.length_append, List.length_cons]
    omega
  by_cases begins : c_str name ≠ [] ∧ c_str name ≠ "value".toList
  · rw [read, pieces_token begins.1 apart, sought_of_last (by
      rw [List.getLast?_concat]
      exact fun last => begins.2 (Option.some.inj last))]
    constructor
    · intro searched
      obtain ⟨parent, leads, finds⟩ := get_of_search searched upper
      refine ⟨above, name, below, parent, split, clean, isHere, begins, leads, ?_⟩
      rw [search, Option.bind_eq_some_iff] at finds
      obtain ⟨next, found, isNext⟩ := finds
      cases isNext
      exact findByName_eq_some_iff.mp found
    · rintro ⟨above', name', below', parent, split', clean', isHere', _, leads, finds⟩
      obtain ⟨rfl, rfl⟩ := first_with_nul (split.symm.trans split') clean clean' isHere isHere'
      have found : findByName (c_str name) ⟨[] ++ above, parent⟩ = _ :=
        findByName_eq_some_iff.mpr finds
      rw [search_append, search_of_get leads, Option.bind_some, search, found]
      rfl
  · refine iff_of_false ?_ ?_
    · -- Nothing is searched for behind the names above, and maybe not for the last of them.
      have fewer : sought (parse xpath) <+: above := by
        rw [read]
        by_cases empty : c_str name = []
        · rw [empty, pieces_nil, List.append_nil]
          unfold sought
          split
          · exact List.dropLast_prefix _
          · exact List.prefix_rfl
        · have isValue : c_str name = "value".toList :=
            Decidable.not_not.mp fun differs => begins ⟨empty, differs⟩
          rw [pieces_token empty apart, isValue, sought_concat_value]
      exact not_search_of_shorter (fewer.trans upper) (fewer.length_le.trans_lt shorter)
    · rintro ⟨above', name', below', _, split', clean', isHere', begins', _⟩
      obtain ⟨_, rfl⟩ := first_with_nul (split.symm.trans split') clean clean' isHere isHere'
      exact begins begins'

theorem select_eq_search (nonempty : xpath ≠ [])
    (unsubscripted : ∀ token ∈ parse xpath, '[' ∉ token) :
    select root xpath = search (sought (parse xpath)) ⟨[], root⟩ := by
  rw [select, if_neg nonempty, selectTokens_eq unsubscripted]

/-- What is read of a path has no characters but those of its pieces. -/
theorem exists_piece_of_read {token : Str} (member : token ∈ parse xpath) :
    ∃ piece ∈ pieces '/' xpath, token <+: piece := by
  by_cases inside : NUL ∈ xpath
  · obtain ⟨above, name, below, split, _, _, read⟩ := parse_of_mem inside
    rw [split]
    rw [read] at member
    rcases List.mem_append.mp member with before | last
    · exact ⟨token, List.mem_append_left _ before, List.prefix_rfl⟩
    · refine ⟨name, List.mem_append_right _ List.mem_cons_self, ?_⟩
      have isPiece : name ∈ pieces '/' xpath := by
        rw [split]
        exact List.mem_append_right _ List.mem_cons_self
      have apart : '/' ∉ c_str name := fun separator =>
        (isToken_of_mem_pieces isPiece).2 ((c_str_isPrefix name).subset separator)
      have nonempty : c_str name ≠ [] := by
        intro empty
        rw [empty] at last
        cases last
      rw [pieces_token nonempty apart] at last
      rw [List.mem_singleton.mp last]
      exact c_str_isPrefix name
  · rw [parse_of_notMem inside] at member
    exact ⟨token, member, List.prefix_rfl⟩

/-- The path of a node selects it, whatever the names of other nodes are, exactly where no name on
the way to the node has a NUL, or it is found by the beginning of such a name. -/
theorem select_toString_iff {node : Node} {location : Location} (below : location ≠ [])
    (isNode : root.get location = some node) (names : ∀ name ∈ location, IsPlainName name) :
    select root (toString location) = some ⟨location, node⟩ ↔
      (∀ name ∈ location, NUL ∉ name) ∨ FoundByBeginning root location node := by
  have unsubscripted : ∀ name ∈ location.tail, ¬ IsSubscript name := fun name member starts =>
    (names name (List.mem_of_mem_tail member)).unsubscripted.1 (List.mem_of_mem_head? starts)
  have cut := pieces_toString (fun name member => (names name member).token) unsubscripted
  have nonempty : toString location ≠ [] := by
    intro empty
    rw [empty] at cut
    exact below cut.symm
  have noBracket : ∀ token ∈ parse (toString location), '[' ∉ token := by
    intro token member bracket
    obtain ⟨name, isName, begins⟩ := exists_piece_of_read member
    rw [cut] at isName
    exact (names name isName).unsubscripted.1 (begins.subset bracket)
  rw [select_eq_search nonempty noBracket]
  by_cases inside : NUL ∈ toString location
  · have dirty : ¬ ∀ name ∈ location, NUL ∉ name := by
      obtain ⟨name, member, isHere⟩ := nul_mem_toString_iff.mp inside
      exact fun clean => clean name member isHere
    rw [search_pieces_iff cut inside, or_iff_right dirty]
  · have clean : ∀ name ∈ location, NUL ∉ name := fun name member isHere =>
      inside (nul_mem_toString_iff.mpr ⟨name, member, isHere⟩)
    refine iff_of_true ?_ (.inl clean)
    rw [parse_of_notMem inside, cut, sought_of_last (plain_of_names names).notValue,
      search_of_get isNode]
    rfl

/-- An absolute path whose pieces stand for names. -/
def IsPlainPath (xpath : Str) : Prop := xpath.head? = some '/' ∧ Plain (pieces '/' xpath)

/-- No node is selected but the one to which the pieces of the path lead from child to child. -/
def SelectsOnlyAt (root : Node) (xpath : Str) : Prop :=
  ∀ found, select root xpath = some found → found.location = pieces '/' xpath

/-- Nothing but the node at a path is selected exactly where there is one and the path has no NUL,
where following the path ends at a token that no node is named by below the one found last, or
where the node is found by the beginning of a name with a NUL. -/
theorem selects_only_at_iff (plain : IsPlainPath xpath) :
    SelectsOnlyAt root xpath ↔
      (root.get (pieces '/' xpath)).isSome ∧ NUL ∉ xpath ∨
        Lost ⟨[], root⟩ (sought (parse xpath)) ∨
          ∃ node, FoundByBeginning root (pieces '/' xpath) node := by
  have nonempty : xpath ≠ [] := by
    rintro rfl
    cases plain.1
  have noBracket : ∀ token ∈ parse xpath, '[' ∉ token := by
    intro token member bracket
    obtain ⟨piece, isPiece, begins⟩ := exists_piece_of_read member
    exact (plain.2.unsubscripted piece isPiece).1 (begins.subset bracket)
  unfold SelectsOnlyAt
  rw [select_eq_search nonempty noBracket, ← search_eq_none_iff]
  constructor
  · intro only
    cases searched : search (sought (parse xpath)) ⟨[], root⟩ with
    | none => exact .inr (.inl rfl)
    | some found =>
        obtain ⟨location, node⟩ := found
        have isThere : location = pieces '/' xpath := only _ searched
        rw [isThere] at searched
        by_cases inside : NUL ∈ xpath
        · exact .inr (.inr ⟨node, (search_pieces_iff rfl inside).mp searched⟩)
        · rw [parse_of_notMem inside, sought_of_last plain.2.notValue] at searched
          have leads := get_of_search_at searched rfl
          exact .inl ⟨Option.isSome_iff_exists.mpr ⟨node, leads⟩, inside⟩
  · rintro (⟨exists_, clean⟩ | nothing | ⟨node, begins⟩) found searched
    · obtain ⟨node, leads⟩ := Option.isSome_iff_exists.mp exists_
      rw [parse_of_notMem clean, sought_of_last plain.2.notValue] at searched
      have only : search _ ⟨[], root⟩ = _ := search_of_get leads
      cases only.symm.trans searched
      rfl
    · cases nothing.symm.trans searched
    · have inside : NUL ∈ xpath := by
        obtain ⟨above, name, below, _, split, _, isHere, _⟩ := begins
        have inPieces : NUL ∈ (pieces '/' xpath).flatten := List.mem_flatten.mpr
          ⟨name, by rw [split]; exact List.mem_append_right _ List.mem_cons_self, isHere⟩
        rw [Text.flatten_pieces] at inPieces
        exact (List.mem_filter.mp inPieces).1
      cases ((search_pieces_iff rfl inside).mpr begins).symm.trans searched
      rfl

end Select

end FlexConfig.XPath

namespace FlexConfig.Sample

open XPath

/-- A container with a leaf, and the same names the other way round. -/
def crossedNames : Node :=
  .composite [("a".toList, .composite [("b".toList, .leaf "x".toList)]),
    ("b".toList, .composite [("a".toList, .leaf "y".toList)])]

theorem crossed_name_selected :
    select crossedNames (XPath.toString ["b".toList]) =
      some ⟨["b".toList], .composite [("a".toList, .leaf "y".toList)]⟩ :=
  (select_toString_iff (by decide) (by decide +kernel) (by decide +kernel)).mpr (.inl (by decide))

/-- A leaf whose name has a NUL. -/
def nulNamed : Node := .composite [(['a', Text.NUL, 'b'], .leaf "x".toList)]

/-- The path of a node is read up to the NUL in the node's name, and selects nothing. -/
theorem nul_name_not_selected :
    IsPlainName ['a', Text.NUL, 'b'] ∧
      nulNamed.get [['a', Text.NUL, 'b']] = some (.leaf "x".toList) ∧
      select nulNamed (XPath.toString [['a', Text.NUL, 'b']]) = none := by
  decide +kernel

/-- A leaf in a container. -/
def nestedLeaf : Node :=
  .composite [("a".toList, .composite [("b".toList, .leaf "x".toList)])]

theorem isPlainPath_leaf : IsPlainPath "/b".toList := by
  refine ⟨rfl, ⟨by decide, by decide⟩⟩

/-- The path of a leaf that does not exist selects the leaf of that name in the
container. -/
theorem leaf_selected_elsewhere :
    IsPlainPath "/b".toList ∧ ¬ SelectsOnlyAt nestedLeaf "/b".toList := by
  refine ⟨isPlainPath_leaf, fun only => ?_⟩
  have selected : select nestedLeaf "/b".toList =
      some ⟨["a".toList, "b".toList], .leaf "x".toList⟩ := by
    decide +kernel
  exact absurd (only _ selected) (by decide)

theorem existing_path_selects_only :
    SelectsOnlyAt crossedNames "/b".toList ↔
      (crossedNames.get (Text.pieces '/' "/b".toList)).isSome ∧ Text.NUL ∉ "/b".toList ∨
        Lost ⟨[], crossedNames⟩ (sought (parse "/b".toList)) ∨
          ∃ node, FoundByBeginning crossedNames (Text.pieces '/' "/b".toList) node :=
  selects_only_at_iff isPlainPath_leaf

end FlexConfig.Sample
