import FlexConfig.Foundation.Until
import FlexConfig.Tree.XPath
import Mathlib.Data.Char
import Mathlib.Data.List.Lex

/-! # How far a traversal goes

A visitor that has found what it looks for answers `false`, and no further node is to be visited.
`Accept` leaves the loop over the siblings of the node, but its callers learn nothing of that and
go on: the nodes behind the container of the refused node are still visited. So a traversal stops
as it is to exactly where there are no such nodes (`traverses_iff`).
-/

namespace FlexConfig

open Node Until

namespace Node

mutual

/-- The children of every composite are in name order, as a `std::map` keeps them. -/
def Ordered : Node → Prop
  | .leaf _ => True
  | .composite entries => (Keyed.keys entries).Pairwise (· < ·) ∧ OrderedChildren entries

def OrderedChildren : List (Str × Node) → Prop
  | [] => True
  | (_, child) :: rest => child.Ordered ∧ OrderedChildren rest

end

end Node

section Noting

variable {σ : Type*} (visit : σ → Located → Bool × σ)

/-- A visitor that notes the nodes it is shown, and answers as another one does. -/
def noting (state : List Located × σ) (visited : Located) : Bool × (List Located × σ) :=
  ((visit state.2 visited).1, (state.1 ++ [visited], (visit state.2 visited).2))

/-- The nodes a traversal shows to a visitor, in turn. -/
def visitedNodes (state : σ) (root : Node) : List Located :=
  (root.accept (noting visit) [] ([], state)).1

mutual

/-- The nodes that are shown below a node. -/
def shownBelow : (location : Location) → Node → σ → List Located
  | _, .leaf _, _ => []
  | location, .composite entries, state => shownChildren location entries state

def shownChildren : (location : Location) → List (Str × Node) → σ → List Located
  | _, [], _ => []
  | location, (name, child) :: rest, state =>
    match visit state ⟨location ++ [name], child⟩ with
    | (false, _) => [⟨location ++ [name], child⟩]
    | (true, next) =>
      ⟨location ++ [name], child⟩ :: shownBelow (location ++ [name]) child next ++
        shownChildren location rest (accept visit (location ++ [name]) child next)

end

mutual

theorem accept_noting : ∀ (location : Location) (node : Node) (seen : List Located) (state : σ),
    accept (noting visit) location node (seen, state) =
      (seen ++ shownBelow visit location node state, accept visit location node state)
  | _, .leaf _, seen, _ => by rw [accept, accept, shownBelow, List.append_nil]
  | location, .composite entries, seen, state => by
      rw [accept, accept, shownBelow]
      exact acceptChildren_noting location entries seen state

theorem acceptChildren_noting : ∀ (location : Location) (entries : List (Str × Node))
    (seen : List Located) (state : σ),
    acceptChildren (noting visit) location entries (seen, state) =
      (seen ++ shownChildren visit location entries state,
        acceptChildren visit location entries state)
  | _, [], seen, _ => by rw [acceptChildren, acceptChildren, shownChildren, List.append_nil]
  | location, (name, child) :: rest, seen, state => by
      rw [acceptChildren, acceptChildren, shownChildren, noting]
      rcases visit state ⟨location ++ [name], child⟩ with ⟨answer, next⟩
      cases answer with
      | false => rfl
      | true =>
          dsimp only
          rw [accept_noting, acceptChildren_noting, List.append_assoc, List.append_assoc]
          rfl

end

theorem visitedNodes_eq (state : σ) (root : Node) :
    visitedNodes visit state root = shownBelow visit [] root state := by
  rw [visitedNodes, accept_noting, List.nil_append]

end Noting

section Stop

variable {σ : Type*} {visit : σ → Located → Bool × σ}

section Cons

variable {location : Location} {name : Str} {child : Node} {rest : List (Str × Node)} {state next : σ}

theorem shownChildren_of_refused (refuses : visit state ⟨location ++ [name], child⟩ = (false, next)) :
    shownChildren visit location ((name, child) :: rest) state = [⟨location ++ [name], child⟩] := by
  rw [shownChildren, refuses]

theorem shownChildren_of_goesOn (accepts : visit state ⟨location ++ [name], child⟩ = (true, next)) :
    shownChildren visit location ((name, child) :: rest) state =
      ⟨location ++ [name], child⟩ :: (shownBelow visit (location ++ [name]) child next ++
        shownChildren visit location rest (accept visit (location ++ [name]) child next)) := by
  rw [shownChildren, accepts]
  rfl

theorem shownChildren_ne_nil : shownChildren visit location ((name, child) :: rest) state ≠ [] := by
  rcases visited : visit state ⟨location ++ [name], child⟩ with ⟨answer, next⟩
  cases answer with
  | false =>
      rw [shownChildren_of_refused visited]
      exact List.cons_ne_nil _ _
  | true =>
      rw [shownChildren_of_goesOn visited]
      exact List.cons_ne_nil _ _

end Cons

mutual

/-- A visitor that refuses nothing is shown all nodes. -/
theorem shownBelow_of_accepted : ∀ (location : Location) (node : Node) {state : σ},
    refused visit state (preorder location node) = none →
      shownBelow visit location node state = preorder location node ∧
        accept visit location node state = after visit state (preorder location node)
  | _, .leaf _, _, _ => ⟨rfl, rfl⟩
  | location, .composite entries, _, accepts => shownChildren_of_accepted location entries accepts

theorem shownChildren_of_accepted : ∀ (location : Location) (entries : List (Str × Node))
    {state : σ}, refused visit state (preorderChildren location entries) = none →
      shownChildren visit location entries state = preorderChildren location entries ∧
        acceptChildren visit location entries state =
          after visit state (preorderChildren location entries)
  | _, [], _, _ => ⟨rfl, rfl⟩
  | location, (name, child) :: rest, state, accepts => by
      rw [preorderChildren, List.cons_append] at accepts ⊢
      rw [shownChildren, acceptChildren]
      rcases visited : visit state ⟨location ++ [name], child⟩ with ⟨answer, next⟩
      cases answer with
      | false =>
          rw [refused_cons_of_refused visited] at accepts
          cases accepts
      | true =>
          rw [refused_cons_of_accepted visited, refused_append_eq_none_iff] at accepts
          obtain ⟨shownChild, afterChild⟩ :=
            shownBelow_of_accepted (location ++ [name]) child accepts.1
          obtain ⟨shownRest, afterRest⟩ := shownChildren_of_accepted location rest accepts.2
          dsimp only
          rw [afterChild, shownChild, shownRest, afterRest, after_cons_of_accepted visited,
            after_append, List.cons_append]
          exact ⟨rfl, rfl⟩

end

mutual

/-- What is to be shown is shown first. -/
theorem shown_prefix_shownBelow : ∀ (location : Location) (node : Node) (state : σ),
    shown visit state (preorder location node) <+: shownBelow visit location node state
  | _, .leaf _, _ => List.prefix_refl []
  | location, .composite entries, state => shown_prefix_shownChildren location entries state

theorem shown_prefix_shownChildren : ∀ (location : Location) (entries : List (Str × Node))
    (state : σ), shown visit state (preorderChildren location entries) <+:
      shownChildren visit location entries state
  | _, [], _ => List.prefix_refl []
  | location, (name, child) :: rest, state => by
      rw [preorderChildren, List.cons_append]
      rcases visited : visit state ⟨location ++ [name], child⟩ with ⟨answer, next⟩
      cases answer with
      | false => rw [shown_cons_of_refused visited, shownChildren_of_refused visited]
      | true =>
          rw [shown_cons_of_accepted visited, shownChildren_of_goesOn visited]
          refine List.cons_prefix_cons.mpr ⟨rfl, ?_⟩
          cases refuses : refused visit next (preorder (location ++ [name]) child) with
          | none =>
              obtain ⟨shownChild, afterChild⟩ :=
                shownBelow_of_accepted (location ++ [name]) child refuses
              rw [shown_append_of_accepted refuses, shownChild, afterChild]
              exact (List.prefix_append_right_inj _).mpr
                (shown_prefix_shownChildren location rest _)
          | some pair =>
              rw [shown_append_of_refused refuses]
              exact (shown_prefix_shownBelow (location ++ [name]) child next).trans
                (List.prefix_append _ _)

end

/-- Nothing comes behind the first node that is refused but what is below its container. -/
def StopsInPlace (visit : σ → Located → Bool × σ) (state : σ) (nodes : List Located) : Prop :=
  ∀ first behind, refused visit state nodes = some (first, behind) →
    ∀ other ∈ behind, first.location.dropLast <+: other.location

section InPlace

variable {state next : σ} {first second : List Located}

theorem stopsInPlace_cons_of_accepted {node : Located} (accepts : visit state node = (true, next)) :
    StopsInPlace visit state (node :: second) ↔ StopsInPlace visit next second := by
  unfold StopsInPlace
  rw [refused_cons_of_accepted accepts]

theorem stopsInPlace_append_of_accepted (accepts : refused visit state first = none) :
    StopsInPlace visit state (first ++ second) ↔
      StopsInPlace visit (after visit state first) second := by
  unfold StopsInPlace
  rw [refused_append_of_accepted accepts]

end InPlace

/-- Where a node below the first child is refused, a second child is visited all the same. -/
theorem not_stopsInPlace_of_sibling {location : Location} {name sibling : Str}
    {child other : Node} {rest : List (Str × Node)} {state : σ} {pair : Located × List Located}
    (differs : name ≠ sibling)
    (refuses : refused visit state (preorder (location ++ [name]) child) = some pair) :
    ¬ StopsInPlace visit state (preorder (location ++ [name]) child ++
      preorderChildren location ((sibling, other) :: rest)) := by
  obtain ⟨first, behind⟩ := pair
  intro inPlace
  obtain ⟨next, below, at_first⟩ :=
    exists_below (location ++ [name]) child ((mem_of_refused refuses).subset List.mem_cons_self)
  have isBehind : (⟨location ++ [sibling], other⟩ : Located) ∈
      behind ++ preorderChildren location ((sibling, other) :: rest) :=
    List.mem_append_right _ (mem_preorderChildren List.mem_cons_self)
  have starts := inPlace first _ (refused_append_of_refused refuses) _ isBehind
  rw [at_first, List.dropLast_append_of_ne_nil (List.cons_ne_nil _ _), List.append_assoc,
    List.prefix_append_right_inj, List.singleton_append] at starts
  exact differs (List.cons_prefix_cons.mp starts).1

mutual

theorem shownBelow_eq_iff : ∀ (location : Location) (node : Node) (state : σ), node.Ordered →
    (shownBelow visit location node state = shown visit state (preorder location node) ↔
      StopsInPlace visit state (preorder location node))
  | _, .leaf _, _, _ => iff_of_true rfl fun _ _ impossible => nomatch impossible
  | location, .composite entries, state, ordered =>
      shownChildren_eq_iff location entries state ordered.1 ordered.2

theorem shownChildren_eq_iff : ∀ (location : Location) (entries : List (Str × Node)) (state : σ),
    (Keyed.keys entries).Pairwise (· < ·) → OrderedChildren entries →
      (shownChildren visit location entries state =
          shown visit state (preorderChildren location entries) ↔
        StopsInPlace visit state (preorderChildren location entries))
  | _, [], _, _, _ => iff_of_true rfl fun _ _ impossible => nomatch impossible
  | location, (name, child) :: rest, state, sorted, ordered => by
      obtain ⟨least, sortedRest⟩ := List.pairwise_cons.mp sorted
      rw [preorderChildren, List.cons_append]
      rcases visited : visit state ⟨location ++ [name], child⟩ with ⟨answer, next⟩
      cases answer with
      | false =>
          rw [shown_cons_of_refused visited, shownChildren_of_refused visited]
          refine iff_of_true rfl fun first behind refuses other isBehind => ?_
          rw [refused_cons_of_refused visited] at refuses
          cases refuses
          have isNode : other ∈ preorderChildren location ((name, child) :: rest) :=
            List.mem_cons_of_mem _ isBehind
          obtain ⟨entry, below, _, at_other⟩ := exists_below_children location _ isNode
          rw [List.dropLast_concat, at_other]
          exact List.prefix_append _ _
      | true =>
          rw [shown_cons_of_accepted visited, shownChildren_of_goesOn visited, List.cons_inj_right,
            stopsInPlace_cons_of_accepted visited]
          cases refuses : refused visit next (preorder (location ++ [name]) child) with
          | none =>
              obtain ⟨shownChild, afterChild⟩ :=
                shownBelow_of_accepted (location ++ [name]) child refuses
              rw [shown_append_of_accepted refuses, shownChild, afterChild, List.append_cancel_left_eq,
                stopsInPlace_append_of_accepted refuses]
              exact shownChildren_eq_iff location rest _ sortedRest ordered.2
          | some pair =>
              rw [shown_append_of_refused refuses]
              cases rest with
              | nil =>
                  rw [shownChildren, preorderChildren, List.append_nil, List.append_nil]
                  exact shownBelow_eq_iff (location ++ [name]) child next ordered.1
              | cons sibling others =>
                  obtain ⟨second, other⟩ := sibling
                  have differs : name ≠ second := (least second List.mem_cons_self).ne
                  refine iff_of_false (fun same => ?_)
                    (not_stopsInPlace_of_sibling differs refuses)
                  have atLeast :=
                    (@shown_prefix_shownBelow _ visit (location ++ [name]) child next).length_le
                  have more := List.length_pos_of_ne_nil (@shownChildren_ne_nil _ visit location second
                    other others (accept visit (location ++ [name]) child next))
                  have lengths := congrArg List.length same
                  rw [List.length_append] at lengths
                  omega

end

end Stop

section Order

mutual

/-- The pre-order goes through the locations in their order, a node before those below it. -/
theorem pairwise_preorder : ∀ (location : Location) (node : Node), node.Ordered →
    (preorder location node).Pairwise fun first second => first.location < second.location
  | _, .leaf _, _ => List.Pairwise.nil
  | location, .composite entries, ordered =>
      pairwise_preorderChildren location entries ordered.1 ordered.2

theorem pairwise_preorderChildren : ∀ (location : Location) (entries : List (Str × Node)),
    (Keyed.keys entries).Pairwise (· < ·) → OrderedChildren entries →
      (preorderChildren location entries).Pairwise fun first second =>
        first.location < second.location
  | _, [], _, _ => List.Pairwise.nil
  | location, (name, child) :: rest, sorted, ordered => by
      obtain ⟨least, sortedRest⟩ := List.pairwise_cons.mp sorted
      have later : ∀ other ∈ preorderChildren location rest, ∀ below,
          location ++ name :: below < other.location := by
        intro other member below
        obtain ⟨entry, rest, inside, at_other⟩ := exists_below_children location _ member
        rw [at_other]
        exact List.append_left_lt (List.Lex.rel (least entry.1 (List.mem_map_of_mem inside)))
      rw [preorderChildren, List.cons_append, List.pairwise_cons, List.pairwise_append]
      refine ⟨fun other member => ?_, pairwise_preorder (location ++ [name]) child ordered.1,
        pairwise_preorderChildren location rest sortedRest ordered.2, fun first inside other member => ?_⟩
      · rcases List.mem_append.mp member with inside | isLater
        · obtain ⟨next, rest, at_other⟩ := exists_below (location ++ [name]) child inside
          rw [at_other, List.append_assoc]
          exact List.append_left_lt (List.Lex.cons List.Lex.nil)
        · exact later other isLater []
      · obtain ⟨next, rest, at_first⟩ := exists_below (location ++ [name]) child inside
        rw [at_first, List.append_assoc]
        exact later other member (next :: rest)

end

end Order

/-- What every finder and resolver relies on: the nodes are visited in the order of their
locations, and they are those of the pre-order up to the first that is refused. -/
structure Traverses {σ : Type*} (visit : σ → Located → Bool × σ) (state : σ) (root : Node) :
    Prop where
  inOrder : (visitedNodes visit state root).Pairwise fun first second =>
    first.location < second.location
  stops : visitedNodes visit state root = shown visit state root.nodes

/-- A traversal is as the visitors rely on exactly where nothing comes behind the first node that
is refused but what is below its container. -/
theorem traverses_iff {σ : Type*} (visit : σ → Located → Bool × σ) (state : σ) (root : Node)
    (ordered : root.Ordered) :
    Traverses visit state root ↔ StopsInPlace visit state root.nodes := by
  have exact_iff := @shownBelow_eq_iff _ visit [] root state ordered
  constructor
  · intro traverses
    exact exact_iff.mp ((visitedNodes_eq visit state root).symm.trans traverses.stops)
  · intro inPlace
    have stops : visitedNodes visit state root = shown visit state root.nodes :=
      (visitedNodes_eq visit state root).trans (exact_iff.mpr inPlace)
    refine ⟨?_, stops⟩
    rw [stops]
    exact (pairwise_preorder [] root ordered).sublist shown_prefix.sublist

end FlexConfig

namespace FlexConfig.Sample

open XPath

/-- A container, and a leaf behind it. -/
def containerThenLeaf : Node :=
  .composite [("a".toList, .composite [("x".toList, .leaf "1".toList)]),
    ("b".toList, .leaf "2".toList)]

theorem ordered_containerThenLeaf : containerThenLeaf.Ordered := by
  unfold containerThenLeaf
  rw [Node.Ordered]
  exact ⟨by decide, ⟨List.pairwise_singleton _ _, trivial, trivial⟩, trivial, trivial⟩

/-- Nothing comes behind the last leaf, so a search for it stops in place. -/
theorem traverses_to_last :
    Traverses (NodeFinder.visit "b".toList) none containerThenLeaf := by
  refine (traverses_iff _ _ _ ordered_containerThenLeaf).mpr ?_
  intro first behind refuses other isBehind
  have last : Until.refused (NodeFinder.visit "b".toList) none containerThenLeaf.nodes =
      some (⟨["b".toList], .leaf "2".toList⟩, []) := by
    decide +kernel
  rw [last] at refuses
  cases refuses
  cases isBehind

/-- The leaf behind the container is visited after the node that was looked for. -/
theorem visited_after_found :
    containerThenLeaf.Ordered ∧
      ¬ Traverses (NodeFinder.visit "x".toList) none containerThenLeaf := by
  refine ⟨ordered_containerThenLeaf, fun traverses => ?_⟩
  exact absurd traverses.stops (by decide +kernel)

end FlexConfig.Sample
