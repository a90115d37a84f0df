import FlexConfig.Ordering.NodesOrdering

/-! # Wildcards and key selectors in dependencies

The resolvers walk the whole tree and consume the tokens of a path in the order in which
they meet nodes of these names. They list the nodes below the one that takes the last token
whose parent has its name: the children of that node and of its namesakes further down. These have
to be named as the children of the node at the path (`resolvers_exact_iff`).
-/

namespace FlexConfig

open XPath (nameOf parentNameOf)
open Node

section Walk

/-- The node at which a walk through nodes has met all tokens in their order. -/
def walkedTo : List Located → List Str → Option Located
  | [], _ | _ :: _, [] => none
  | visited :: rest, token :: others =>
    if nameOf visited.location = token then
      if others = [] then some visited else walkedTo rest others
    else walkedTo rest (token :: others)

/-- One visit without its answer. -/
abbrev consumed (state : List Str × List Str) (visited : Located) : List Str × List Str :=
  (consumeToken state visited).2

theorem consumed_cons (token : Str) (others names : List Str) (visited : Located) :
    consumed (token :: others, names) visited =
      (if nameOf visited.location ≠ token then (true, token :: others, names)
      else if others = [] then (false, [], getAllSubnodes visited)
      else (true, others, names)).2 := rfl

theorem foldl_consumed_done (nodes : List Located) (names : List Str) :
    nodes.foldl consumed ([], names) = ([], names) := by
  induction nodes with
  | nil => rfl
  | cons visited rest ih => exact ih

/-- A visit that ends the loop leaves no token. -/
theorem consumeToken_stops {state next : List Str × List Str} {visited : Located}
    (stops : consumeToken state visited = (false, next)) : next.1 = [] := by
  unfold consumeToken at stops
  split at stops
  · cases stops
  · split at stops
    · cases stops
    · split at stops
      · cases stops
        rfl
      · cases stops

mutual

/-- The walk goes through all nodes, for the visits behind the last token do nothing. -/
theorem accept_consumeToken : ∀ (location : Location) (node : Node) (state : List Str × List Str),
    accept consumeToken location node state = (preorder location node).foldl consumed state
  | _, .leaf _, _ => rfl
  | location, .composite entries, state => acceptChildren_consumeToken location entries state

theorem acceptChildren_consumeToken : ∀ (location : Location) (entries : List (Str × Node))
    (state : List Str × List Str),
    acceptChildren consumeToken location entries state =
      (preorderChildren location entries).foldl consumed state
  | _, [], _ => rfl
  | location, (name, child) :: rest, state => by
      rw [acceptChildren, preorderChildren, List.cons_append, List.foldl_cons, List.foldl_append]
      split
      · next next stops =>
        obtain ⟨tokens, names⟩ := next
        cases consumeToken_stops stops
        have here : consumed state ⟨location ++ [name], child⟩ = ([], names) :=
          congrArg Prod.snd stops
        rw [here, foldl_consumed_done, foldl_consumed_done]
      · next next goes =>
        have here : consumed state ⟨location ++ [name], child⟩ = next := congrArg Prod.snd goes
        rw [here, accept_consumeToken, acceptChildren_consumeToken]

end

theorem foldl_consumed (nodes : List Located) (tokens : List Str) :
    (nodes.foldl consumed (tokens, [])).2 =
      ((walkedTo nodes tokens).map getAllSubnodes).getD [] := by
  induction nodes generalizing tokens with
  | nil => rfl
  | cons visited rest ih =>
      cases tokens with
      | nil =>
          rw [foldl_consumed_done]
          rfl
      | cons token others =>
          rw [List.foldl_cons, walkedTo]
          by_cases named : nameOf visited.location = token
          · by_cases last : others = []
            · have here : consumed (token :: others, []) visited = ([], getAllSubnodes visited) := by
                rw [consumed_cons, if_neg (not_not.mpr named), if_pos last]
              rw [here, foldl_consumed_done, if_pos named, if_pos last]
              rfl
            · have here : consumed (token :: others, []) visited = (others, []) := by
                rw [consumed_cons, if_neg (not_not.mpr named), if_neg last]
              rw [here, if_pos named, if_neg last]
              exact ih others
          · have here : consumed (token :: others, []) visited = (token :: others, []) := by
              rw [consumed_cons, if_pos named]
            rw [here, if_neg named]
            exact ih (token :: others)

/-- The names listed are those below the node at which the walk ends. -/
theorem subnodesBelow_eq (root : Node) (pre : Str) :
    subnodesBelow root pre =
      ((walkedTo root.nodes (XPath.parse pre)).map getAllSubnodes).getD [] := by
  unfold subnodesBelow
  rw [accept_consumeToken]
  exact foldl_consumed root.nodes (XPath.parse pre)

end Walk

section Subnodes

/-- Whether the parent of a node has the name of the node at a location. -/
def isSubnode (location : Location) (visited : Located) : Bool :=
  parentNameOf visited.location = nameOf location

theorem getAllSubnodes_eq_filter (start : Located) :
    getAllSubnodes start =
      (((start.node.preorder start.location).filter (isSubnode start.location)).map
        (nameOf ·.location)).reverse := by
  have collected : ∀ (nodes : List Located) (names : List Str),
      nodes.foldl (fun found visited =>
        (SubnodeChildsVisitor.visit (nameOf start.location) found visited).2) names =
          ((nodes.filter (isSubnode start.location)).map (nameOf ·.location)).reverse ++ names := by
    intro nodes
    induction nodes with
    | nil => exact fun _ => rfl
    | cons visited rest ih =>
        intro names
        rw [List.foldl_cons, ih]
        by_cases below : parentNameOf visited.location = nameOf start.location
        · have kept : isSubnode start.location visited = true := decide_eq_true below
          have here : (SubnodeChildsVisitor.visit (nameOf start.location) names visited).2 =
              nameOf visited.location :: names := if_pos below
          rw [here, List.filter_cons_of_pos kept, List.map_cons, List.reverse_cons,
            List.append_assoc]
          rfl
        · have left : ¬ isSubnode start.location visited = true := by
            rw [isSubnode, decide_eq_true_eq]
            exact below
          have here : (SubnodeChildsVisitor.visit (nameOf start.location) names visited).2 =
              names := if_neg below
          rw [here, List.filter_cons_of_neg left]
  unfold getAllSubnodes
  rw [accept_eq_foldl fun _ _ => rfl, collected, List.append_nil]

/-- The names of the children of a node. -/
def childNames (found : Located) : List Str := found.node.children.map Prod.fst

mutual

/-- The nodes whose parent is of a kind are the children of the nodes of this kind. -/
theorem perm_childNames (keep : Location → Bool) : ∀ (location : Location) (node : Node),
    (((preorder location node).filter fun visited => keep visited.location.dropLast).map
      (nameOf ·.location)).Perm
        (((⟨location, node⟩ :: preorder location node).filter fun visited =>
          keep visited.location).flatMap childNames)
  | location, .leaf value => by
      cases kept : keep location <;> simp [preorder, kept, childNames, children]
  | location, .composite entries => by
      have below := perm_childNames_children keep location entries
      rw [List.filter_cons]
      cases kept : keep location with
      | true => rw [kept] at below; exact below
      | false => rw [kept] at below; exact below

theorem perm_childNames_children (keep : Location → Bool) :
    ∀ (location : Location) (entries : List (Str × Node)),
      (((preorderChildren location entries).filter fun visited =>
        keep visited.location.dropLast).map (nameOf ·.location)).Perm
          ((if keep location then entries.map Prod.fst else []) ++
            ((preorderChildren location entries).filter fun visited =>
              keep visited.location).flatMap childNames)
  | location, [] => by cases kept : keep location <;> simp [preorderChildren]
  | location, (name, child) :: rest => by
      have here := perm_childNames keep (location ++ [name]) child
      have others := perm_childNames_children keep location rest
      rw [preorderChildren, List.filter_append, List.filter_append, List.flatMap_append,
        List.map_append, List.filter_cons, List.dropLast_concat]
      cases kept : keep location with
      | true =>
          rw [kept] at others
          rw [if_pos rfl, List.map_cons, XPath.nameOf_concat]
          exact ((here.append others).cons name).trans
            ((List.perm_append_comm_assoc _ _ _).cons name)
      | false =>
          rw [kept] at others
          exact here.append others

end

/-- The nodes at and below a node that have its name. -/
def namesakes (start : Located) : List Located :=
  (start :: start.node.preorder start.location).filter fun visited =>
    nameOf visited.location = nameOf start.location

/-- The names listed for a node are those of the children of all its namesakes. -/
theorem getAllSubnodes_perm (start : Located) :
    (getAllSubnodes start).Perm ((namesakes start).flatMap childNames) := by
  rw [getAllSubnodes_eq_filter]
  exact (List.reverse_perm _).trans (perm_childNames
    (fun location => nameOf location = nameOf start.location) start.location start.node)

end Subnodes

section Counting

variable {α β γ : Type} [DecidableEq β] [DecidableEq γ]

/-- What a list is mapped to is a rearrangement of what another one is mapped to. -/
theorem perm_map_map_iff {f : α → γ} {g : β → γ} {reads : α → Option β}
    (same : ∀ a b, f a = g b ↔ reads a = some b) (items : List α) (others : List β) :
    (items.map f).Perm (others.map g) ↔ (∀ a ∈ items, (reads a).isSome) ∧
      ∀ b, items.countP (fun a => reads a = some b) = others.countP fun other => g other = g b := by
  have counted : ∀ b, (items.map f).count (g b) = items.countP fun a => reads a = some b := by
    intro b
    rw [List.count, List.countP_map]
    exact List.countP_congr fun a _ => by simp [same]
  have countedOther : ∀ b, (others.map g).count (g b) = others.countP fun other => g other = g b := by
    intro b
    rw [List.count, List.countP_map]
    exact List.countP_congr fun a _ => by simp
  constructor
  · intro perm
    refine ⟨fun a member => ?_, fun b => ?_⟩
    · obtain ⟨b, _, equal⟩ := List.mem_map.mp (perm.mem_iff.mp (List.mem_map_of_mem member))
      rw [(same a b).mp equal.symm]
      rfl
    · rw [← counted, ← countedOther]
      exact perm.count_eq _
  · rintro ⟨read, counts⟩
    refine List.perm_iff_count.mpr fun c => ?_
    by_cases written : ∃ b, g b = c
    · obtain ⟨b, rfl⟩ := written
      rw [counted, countedOther, counts]
    · have none : c ∉ items.map f := by
        intro member
        obtain ⟨a, inside, rfl⟩ := List.mem_map.mp member
        obtain ⟨b, reads⟩ := Option.isSome_iff_exists.mp (read a inside)
        exact written ⟨b, ((same a b).mpr reads).symm⟩
      have noneOther : c ∉ others.map g := by
        intro member
        obtain ⟨b, _, rfl⟩ := List.mem_map.mp member
        exact written ⟨b, rfl⟩
      rw [List.count_eq_zero_of_not_mem none, List.count_eq_zero_of_not_mem noneOther]

end Counting

section Exact

/-- How many children of the nodes have names that are read as a name. -/
def childrenReadAs (reads : Str → Option Str) (name : Str) (nodes : List Located) : Nat :=
  (nodes.flatMap childNames).countP fun child => reads child = some name

/-- The nodes whose children are met: those at and below the node at which the walk for the
tokens ends that have its name. -/
def met (root : Node) (tokens : List Str) : List Located :=
  ((walkedTo root.nodes tokens).map namesakes).getD []

/-- The node at a path, if there is one. -/
def reached (root : Node) (tokens : List Str) : List Located :=
  ((root.get tokens).map fun node => ⟨tokens, node⟩).toList

/-- The children of the nodes that are met have, as their names are read, the names of the
children of the node at the path, and each name as often. -/
structure ListsChildren (reads : Str → Option Str) (root : Node) (tokens : List Str) : Prop where
  readable : ∀ found ∈ met root tokens, ∀ name ∈ childNames found, (reads name).isSome
  counted : ∀ name, childrenReadAs reads name (met root tokens) =
    childrenReadAs some name (reached root tokens)

theorem subnodesBelow_perm (root : Node) (pre : Str) :
    (subnodesBelow root pre).Perm ((met root (XPath.parse pre)).flatMap childNames) := by
  rw [subnodesBelow_eq]
  unfold met
  cases walkedTo root.nodes (XPath.parse pre) with
  | none => exact .refl _
  | some ended => exact getAllSubnodes_perm ended

/-- What stands behind a wildcard or a key: nothing, or a separator and a path. -/
def behind (post : Str) : Str := if post = [] then [] else '/' :: post

/-- `pre/*`, or `pre/*/post`. -/
def wildcardDependency (pre post : Str) : Str := pre ++ WILDCARD_XPATH_NODE ++ behind post

/-- `pre[@key]`, or `pre[@key]/post`. -/
def keyDependency (pre post : Str) : Str := pre ++ XPath.ITEM_NAME_SUBSCRIPT ++ behind post

/-- `pre/c` or `pre/c/post` for a name. -/
def childXPath (pre post name : Str) : Str := pre ++ XPath.SEPARATOR ++ name ++ behind post

/-- Exactly the paths of the children of the node at the path are yielded, each once. -/
def YieldsChildren (root : Node) (pre post : Str) (yielded : List Str) : Prop :=
  yielded.Perm (((reached root (XPath.parse pre)).flatMap childNames).map (childXPath pre post))

theorem childXPath_injective (pre post : Str) : (childXPath pre post).Injective := by
  intro first second same
  unfold childXPath at same
  exact List.append_cancel_left (List.append_cancel_right same)

theorem drop_behind (pre token post : Str) :
    (pre ++ token ++ behind post).drop (pre.length + (token.length + 1)) = post := by
  unfold behind
  split
  · next empty =>
    rw [empty]
    exact List.drop_eq_nil_of_le (by simp)
  · have cut : pre ++ token ++ '/' :: post = (pre ++ token ++ ['/']) ++ post := by simp
    rw [cut]
    exact List.drop_left' (by simp)

theorem cutAt_eq {token pre : Str} {c : Char} {rest : Str} (isToken : token = c :: rest)
    (once : c ∉ rest) (absent : Text.find token pre = none) (post : Str) :
    cutAt token (token.length + 1) (pre ++ token ++ behind post) = (pre, post) := by
  subst isToken
  unfold cutAt
  rw [Text.find_append once absent]
  dsimp only
  rw [drop_behind, List.append_assoc, List.take_left]

/-- The name whose path the key selector writes for a name: it puts no separator behind one that
ends in a separator, none behind an empty name, and none where one follows. -/
def KeySelectorResolver.writtenName (post name : Str) : Option Str :=
  if post = [] then some name
  else if name.getLast? = some '/' then some name.dropLast
  else if name = [] ∨ post.head? = some '/' then none
  else some name

theorem childXPath_eq_iff {pre post name other : Str} :
    childXPath pre post name = childXPath pre post other ↔ some name = some other :=
  (childXPath_injective pre post).eq_iff.trans (Option.some_inj).symm

/-- The paths that are written are those of the children where the names that are met are read as
the names of the children. -/
theorem yieldsChildren_iff {root : Node} {pre post : Str} {reads : Str → Option Str}
    {compose : Str → Str}
    (same : ∀ name other, compose name = childXPath pre post other ↔ reads name = some other) :
    YieldsChildren root pre post ((subnodesBelow root pre).reverse.map compose) ↔
      ListsChildren reads root (XPath.parse pre) := by
  have listed : ((subnodesBelow root pre).reverse.map compose).Perm
      (((met root (XPath.parse pre)).flatMap childNames).map compose) :=
    ((List.reverse_perm _).trans (subnodesBelow_perm root pre)).map compose
  have counts : ∀ name, ((reached root (XPath.parse pre)).flatMap childNames).countP
        (fun other => childXPath pre post other = childXPath pre post name) =
      childrenReadAs some name (reached root (XPath.parse pre)) := by
    intro name
    unfold childrenReadAs
    simp only [childXPath_eq_iff]
  unfold YieldsChildren
  rw [listed.congr_left, perm_map_map_iff same]
  simp only [counts, List.mem_flatMap]
  exact ⟨fun ⟨readable, counted⟩ => ⟨fun found member name inside =>
      readable name ⟨found, member, inside⟩, counted⟩,
    fun lists => ⟨fun name ⟨found, member, inside⟩ => lists.readable found member name inside,
      lists.counted⟩⟩

theorem composeXPath_eq_iff {pre post name other : Str} :
    composeXPath pre post name = childXPath pre post other ↔
      KeySelectorResolver.writtenName post name = some other := by
  unfold composeXPath childXPath behind KeySelectorResolver.writtenName
  dsimp only
  by_cases empty : post = []
  · rw [if_pos empty, if_pos empty, if_pos empty, List.append_nil, List.append_cancel_left_eq,
      Option.some_inj]
  rw [if_neg empty, if_neg empty, if_neg empty]
  have written : pre ++ XPath.SEPARATOR ++ other ++ '/' :: post =
      pre ++ XPath.SEPARATOR ++ (other ++ ['/'] ++ post) := by simp
  rw [written]
  rcases List.eq_nil_or_concat name with rfl | ⟨start, last, rfl⟩
  · -- the empty name: the separator before it is the one that stands there
    have ends : (pre ++ XPath.SEPARATOR ++ ([] : Str)).getLast? = some '/' := by
      simp [XPath.SEPARATOR]
    rw [if_neg fun joined => joined.2.1 ends, if_neg (by simp), if_pos (.inl rfl),
      List.append_assoc, List.append_cancel_left_eq, List.nil_append]
    refine iff_of_false (fun equal => ?_) (by simp)
    have lengths := congrArg List.length equal
    simp only [List.length_append, List.length_singleton] at lengths
    omega
  have ends : (pre ++ XPath.SEPARATOR ++ (start ++ [last])).getLast? = some last := by
    rw [← List.append_assoc, List.getLast?_concat]
  have long : (pre ++ XPath.SEPARATOR ++ (start ++ [last])).length > 1 := by
    have separator : XPath.SEPARATOR.length = 1 := rfl
    simp only [List.length_append, List.length_singleton]
    omega
  rw [List.concat_eq_append, ends, List.getLast?_concat, List.dropLast_concat]
  by_cases slash : last = '/'
  · subst slash
    rw [if_neg fun joined => joined.2.1 rfl, if_pos rfl, List.append_assoc,
      List.append_cancel_left_eq, List.append_cancel_right_eq, List.append_cancel_right_eq,
      Option.some_inj]
  have notSlash : some last ≠ some '/' := fun same => slash (Option.some.inj same)
  rw [if_neg notSlash]
  by_cases begins : post.head? = some '/'
  · rw [if_neg fun joined => joined.2.2 begins, if_pos (.inr begins), List.append_assoc,
      List.append_cancel_left_eq, List.append_cancel_right_eq]
    refine iff_of_false (fun equal => slash ?_) (by simp)
    exact Option.some.inj (by rw [← List.getLast?_concat, equal, List.getLast?_concat])
  · rw [if_pos ⟨long, notSlash, begins⟩, if_neg (by simp [begins])]
    have joined : pre ++ XPath.SEPARATOR ++ (start ++ [last]) ++ XPath.SEPARATOR ++ post =
        pre ++ XPath.SEPARATOR ++ (start ++ [last] ++ ['/'] ++ post) := by simp [XPath.SEPARATOR]
    rw [joined, List.append_cancel_left_eq, List.append_cancel_right_eq,
      List.append_cancel_right_eq, Option.some_inj]

/-- Wildcards and key selectors yield exactly the children of the node at a path where the
children of the nodes that the walk meets have their names. -/
theorem resolvers_exact_iff (root : Node) (pre post : Str) :
    (Text.find WILDCARD_XPATH_NODE pre = none →
      (YieldsChildren root pre post (WildcardDependencyResolver.getEvaluatedXpath root
        (wildcardDependency pre post)) ↔ ListsChildren some root (XPath.parse pre))) ∧
    (Text.find XPath.ITEM_NAME_SUBSCRIPT pre = none →
      (YieldsChildren root pre post (KeySelectorResolver.getEvaluatedXpath root
        (keyDependency pre post)) ↔
          ListsChildren (KeySelectorResolver.writtenName post) root (XPath.parse pre))) := by
  refine ⟨fun plain => ?_, fun plain => ?_⟩
  · have parts : cutAt WILDCARD_XPATH_NODE 3 (wildcardDependency pre post) = (pre, post) :=
      cutAt_eq rfl (by decide) plain post
    have composed : (fun subnode => pre ++ XPath.SEPARATOR ++ subnode ++
        if post = [] then [] else XPath.SEPARATOR ++ post) = childXPath pre post := rfl
    unfold WildcardDependencyResolver.getEvaluatedXpath
    rw [parts]
    dsimp only
    rw [composed]
    exact yieldsChildren_iff fun _ _ => childXPath_eq_iff
  · have parts : cutAt XPath.ITEM_NAME_SUBSCRIPT 7 (keyDependency pre post) = (pre, post) :=
      cutAt_eq rfl (by decide) plain post
    unfold KeySelectorResolver.getEvaluatedXpath
    rw [parts]
    exact yieldsChildren_iff fun _ _ => composeXPath_eq_iff

end Exact

end FlexConfig

namespace FlexConfig.Sample

/-- A container of ports that comes behind a leaf of its name. -/
def strayPort : Node :=
  .composite [
    ("lag".toList, .composite [("port".toList, .composite [("x".toList, .leaf [])])]),
    ("port".toList, .composite [("eth1".toList, .leaf [])])]

/-- The first node of a name takes the token, wherever it is. -/
theorem stray_port_resolved :
    WildcardDependencyResolver.getEvaluatedXpath strayPort (wildcardDependency "/port".toList []) =
        ["/port/x".toList] ∧
      KeySelectorResolver.getEvaluatedXpath strayPort (keyDependency "/port".toList []) =
        ["/port/x".toList] ∧
      ¬ YieldsChildren strayPort "/port".toList []
        (WildcardDependencyResolver.getEvaluatedXpath strayPort
          (wildcardDependency "/port".toList [])) := by
  unfold YieldsChildren
  decide +kernel

theorem lag_resolved :
    (YieldsChildren strayPort "/lag".toList "mtu".toList (WildcardDependencyResolver.getEvaluatedXpath
        strayPort (wildcardDependency "/lag".toList "mtu".toList)) ↔
      ListsChildren some strayPort (XPath.parse "/lag".toList)) ∧
    (YieldsChildren strayPort "/lag".toList "mtu".toList (KeySelectorResolver.getEvaluatedXpath
        strayPort (keyDependency "/lag".toList "mtu".toList)) ↔
      ListsChildren (KeySelectorResolver.writtenName "mtu".toList) strayPort
        (XPath.parse "/lag".toList)) :=
  ⟨(resolvers_exact_iff strayPort "/lag".toList "mtu".toList).1 (by decide),
    (resolvers_exact_iff strayPort "/lag".toList "mtu".toList).2 (by decide)⟩

end FlexConfig.Sample
