import FlexConfig.Foundation.Insertion
import FlexConfig.Tree.Traversal

/-! # What a tree holds

A tree whose children are in name order is determined by what it holds at each location: a value
at a leaf, and nothing more at a composite. What is added, removed or put in place somewhere is
held there, and everything else is left as it was.
-/

namespace FlexConfig.Node

/-- The value of a leaf. -/
def value? : Node → Option Str
  | .leaf value => some value
  | .composite _ => none

/-- What a tree holds at a location. -/
def holds (root : Node) (location : Location) : Option (Option Str) :=
  (root.get location).map value?

variable {root child other : Node} {name : Str} {location : Location}

section Order

theorem orderedChildren_iff {entries : List (Str × Node)} :
    OrderedChildren entries ↔ ∀ entry ∈ entries, entry.2.Ordered := by
  induction entries with
  | nil => exact iff_of_true trivial fun _ impossible => absurd impossible List.not_mem_nil
  | cons entry rest ih => rw [OrderedChildren, ih, List.forall_mem_cons]

mutual

def decideOrdered : ∀ node : Node, Decidable node.Ordered
  | .leaf _ => isTrue trivial
  | .composite entries => @instDecidableAnd _ _ inferInstance (decideOrderedChildren entries)

def decideOrderedChildren : ∀ entries : List (Str × Node), Decidable (OrderedChildren entries)
  | [] => isTrue trivial
  | (_, child) :: rest => @instDecidableAnd _ _ (decideOrdered child) (decideOrderedChildren rest)

end

instance (node : Node) : Decidable node.Ordered := decideOrdered node

theorem ordered_empty : Node.empty.Ordered := ⟨.nil, trivial⟩

theorem ordered_leaf (value : Str) : (leaf value).Ordered := trivial

theorem Ordered.keys (ordered : root.Ordered) : (Keyed.keys root.children).Pairwise (· < ·) := by
  cases root with
  | leaf value => exact .nil
  | composite entries => exact ordered.1

theorem Ordered.findNode (ordered : root.Ordered) (found : root.findNode name = some child) :
    child.Ordered := by
  cases root with
  | leaf value => cases found
  | composite entries => exact orderedChildren_iff.mp ordered.2 _ (Keyed.mem_of_find found)

theorem Ordered.add (ordered : root.Ordered) (name : Str) (inner : child.Ordered) :
    (root.add name child).Ordered := by
  cases root with
  | leaf value => trivial
  | composite entries =>
      refine ⟨Keyed.pairwise_keys_insert ordered.1, orderedChildren_iff.mpr fun entry member => ?_⟩
      rcases Keyed.mem_of_mem_insert member with rfl | old
      · exact inner
      · exact orderedChildren_iff.mp ordered.2 entry old

theorem Ordered.remove (ordered : root.Ordered) (name : Str) : (root.remove name).Ordered := by
  cases root with
  | leaf value => trivial
  | composite entries =>
      exact ⟨Keyed.pairwise_keys_erase ordered.1, orderedChildren_iff.mpr fun entry member =>
        orderedChildren_iff.mp ordered.2 entry ((Keyed.erase_sublist name entries).subset member)⟩

theorem Ordered.modify (ordered : root.Ordered) {change : Node → Node}
    (keeps : ∀ node, node.Ordered → (change node).Ordered) (location : Location) :
    (root.modify change location).Ordered := by
  induction location generalizing root with
  | nil => exact keeps root ordered
  | cons name rest ih =>
      rw [Node.modify]
      cases found : root.findNode name with
      | none => exact ordered
      | some child => exact ordered.add name (ih (ordered.findNode found))

theorem Ordered.removeAt (ordered : root.Ordered) (location : Location) :
    (root.removeAt location).Ordered := by
  unfold Node.removeAt
  split
  · exact ordered
  · exact ordered.modify (fun _ inner => inner.remove _) _

end Order

section Holding

theorem get_cons (root : Node) (name : Str) (rest : Location) :
    root.get (name :: rest) = (root.findNode name).bind fun child => child.get rest := rfl

theorem holds_nil (root : Node) : root.holds [] = some root.value? := rfl

theorem holds_cons (root : Node) (name : Str) (rest : Location) :
    root.holds (name :: rest) = (root.findNode name).bind fun child => child.holds rest := by
  unfold holds
  rw [get_cons]
  cases root.findNode name <;> rfl

theorem get_append (root : Node) (above below : Location) :
    root.get (above ++ below) = (root.get above).bind fun node => node.get below := by
  induction above generalizing root with
  | nil => rfl
  | cons name rest ih =>
      rw [List.cons_append, get_cons, get_cons]
      cases root.findNode name with
      | none => rfl
      | some child => exact ih child

theorem holds_append (root : Node) (above below : Location) :
    root.holds (above ++ below) = (root.get above).bind fun node => node.holds below := by
  unfold holds
  rw [get_append]
  cases root.get above <;> rfl

theorem isSome_holds_iff : (root.holds location).isSome = true ↔ (root.get location).isSome = true := by
  unfold holds
  rw [Option.isSome_map]

/-- Trees that hold the same are the same. -/
theorem eq_of_holds : ∀ {left right : Node}, left.Ordered → right.Ordered →
    (∀ location, left.holds location = right.holds location) → left = right
  | .leaf first, .leaf second, _, _, same => by
      cases same []
      rfl
  | .leaf _, .composite _, _, _, same | .composite _, .leaf _, _, _, same => by cases same []
  | .composite first, .composite second, sortedFirst, sortedSecond, same => by
      refine congrArg composite (Keyed.eq_of_find sortedFirst.1 sortedSecond.1 fun name => ?_)
      have below : ∀ rest, ((Keyed.find name first).bind fun child => child.holds rest) =
          (Keyed.find name second).bind fun child => child.holds rest := fun rest => by
        have here := same (name :: rest)
        rw [holds_cons, holds_cons] at here
        exact here
      cases foundFirst : Keyed.find name first with
      | none =>
          cases foundSecond : Keyed.find name second with
          | none => rfl
          | some child =>
              have impossible := below []
              rw [foundFirst, foundSecond] at impossible
              cases impossible
      | some child =>
          cases foundSecond : Keyed.find name second with
          | none =>
              have impossible := below []
              rw [foundFirst, foundSecond] at impossible
              cases impossible
          | some other =>
              have smaller := List.sizeOf_lt_of_mem (Keyed.mem_of_find foundFirst)
              have isChild : child.Ordered :=
                have all : (composite first).Ordered := sortedFirst
                all.findNode foundFirst
              have isOther : other.Ordered :=
                have all : (composite second).Ordered := sortedSecond
                all.findNode foundSecond
              refine congrArg some (eq_of_holds isChild isOther fun rest => ?_)
              have here := below rest
              rw [foundFirst, foundSecond] at here
              exact here
termination_by left => sizeOf left
decreasing_by
  simp only [composite.sizeOf_spec, Prod.mk.sizeOf_spec] at smaller ⊢
  omega

theorem Ordered.get (ordered : root.Ordered) (found : root.get location = some child) :
    child.Ordered := by
  induction location generalizing root with
  | nil =>
      cases found
      exact ordered
  | cons name rest ih =>
      rw [get_cons] at found
      obtain ⟨inner, isChild, below⟩ := Option.bind_eq_some_iff.mp found
      exact ih (ordered.findNode isChild) below

/-- A node to which a location leads from another one is below that. -/
theorem mem_preorder_of_get {above below : Location} (found : root.get below = some child)
    (nonempty : below ≠ []) : ⟨above ++ below, child⟩ ∈ root.preorder above := by
  induction below generalizing root above with
  | nil => exact absurd rfl nonempty
  | cons name rest ih =>
      rw [get_cons] at found
      obtain ⟨inner, isChild, leads⟩ := Option.bind_eq_some_iff.mp found
      cases root with
      | leaf value => cases isChild
      | composite entries =>
          rw [preorder, preorderChildren_eq_flatMap, List.mem_flatMap]
          refine ⟨(name, inner), Keyed.mem_of_find isChild, ?_⟩
          cases rest with
          | nil =>
              cases leads
              exact List.mem_cons_self
          | cons next others =>
              have lower : ⟨(above ++ [name]) ++ next :: others, child⟩ ∈
                  inner.preorder (above ++ [name]) := ih leads (List.cons_ne_nil _ _)
              rw [List.append_assoc] at lower
              exact List.mem_cons_of_mem _ lower

/-- What is below a node is where its location leads to. -/
theorem get_of_mem_preorder : ∀ {root : Node} {above : Location} {visited : Located}, root.Ordered →
    visited ∈ root.preorder above →
      ∃ below, below ≠ [] ∧ visited.location = above ++ below ∧ root.get below = some visited.node
  | .leaf _, _, _, _, impossible => by cases impossible
  | .composite entries, above, visited, ordered, member => by
      rw [preorder, preorderChildren_eq_flatMap, List.mem_flatMap] at member
      obtain ⟨⟨name, child⟩, isEntry, here⟩ := member
      have isChild : (composite entries).findNode name = some child :=
        (Keyed.find_eq_some_iff ordered.1).mpr isEntry
      rcases List.mem_cons.mp here with rfl | lower
      · exact ⟨[name], List.cons_ne_nil _ _, rfl, by rw [get_cons, isChild]; rfl⟩
      · have smaller := List.sizeOf_lt_of_mem isEntry
        obtain ⟨below, _, located, leads⟩ := get_of_mem_preorder (ordered.findNode isChild) lower
        refine ⟨name :: below, List.cons_ne_nil _ _, ?_, ?_⟩
        · rw [located, List.append_assoc]
          rfl
        · rw [get_cons, isChild]
          exact leads
termination_by root => sizeOf root
decreasing_by
  simp only [composite.sizeOf_spec, Prod.mk.sizeOf_spec] at smaller ⊢
  omega

/-- The nodes of a tree are those that locations below the root lead to. -/
theorem mem_nodes_iff (ordered : root.Ordered) {visited : Located} :
    visited ∈ root.nodes ↔ visited.location ≠ [] ∧ root.get visited.location = some visited.node := by
  constructor
  · intro member
    obtain ⟨below, nonempty, located, leads⟩ := get_of_mem_preorder ordered member
    rw [List.nil_append] at located
    rw [located]
    exact ⟨nonempty, leads⟩
  · intro ⟨nonempty, leads⟩
    exact mem_preorder_of_get leads nonempty

end Holding

section Writing

theorem findNode_add (composite : root.isLeaf = false) (name query : Str) (child : Node) :
    (root.add name child).findNode query = if query = name then some child else root.findNode query := by
  cases root with
  | leaf value => cases composite
  | composite entries => exact Keyed.find_insert name query child entries

theorem isLeaf_of_findNode (found : root.findNode name = some child) : root.isLeaf = false := by
  cases root with
  | leaf value => cases found
  | composite entries => rfl

theorem findNode_remove (ordered : root.Ordered) (name query : Str) :
    (root.remove name).findNode query = if query = name then none else root.findNode query := by
  cases root with
  | leaf value => exact (ite_self none).symm
  | composite entries => exact Keyed.find_erase ordered.1 name query

theorem value?_add (name : Str) (child : Node) : (root.add name child).value? = root.value? := by
  cases root <;> rfl

theorem value?_eq_none_iff : root.value? = none ↔ root.isLeaf = false := by
  cases root with
  | leaf value => exact iff_of_false nofun nofun
  | composite entries => exact iff_of_true rfl rfl

theorem value?_remove (name : Str) : (root.remove name).value? = root.value? := by
  cases root <;> rfl

/-- What is held at and below a node that is put in place of another one. -/
theorem holds_modify {change : Node → Node} {node : Node} (found : root.get location = some node)
    (query : Location) :
    (root.modify change location).holds query =
      if location <+: query then (change node).holds (query.drop location.length)
      else root.holds query := by
  induction location generalizing root query with
  | nil =>
      cases found
      rw [if_pos List.nil_prefix]
      rfl
  | cons name rest ih =>
      rw [get_cons] at found
      obtain ⟨child, isChild, below⟩ := Option.bind_eq_some_iff.mp found
      have composite := isLeaf_of_findNode isChild
      rw [Node.modify, isChild]
      dsimp only
      cases query with
      | nil =>
          rw [if_neg (by simp), holds_nil, holds_nil, value?_add]
      | cons head tail =>
          rw [holds_cons, findNode_add composite, holds_cons]
          by_cases here : head = name
          · subst here
            rw [if_pos rfl, isChild, Option.bind_some, Option.bind_some, ih below]
            simp only [List.cons_prefix_cons, true_and, List.length_cons, List.drop_succ_cons]
          · rw [if_neg here, if_neg fun starts => here (List.cons_prefix_cons.mp starts).1.symm]

/-- Nothing is held at or below a node that is removed. -/
theorem holds_removeAt {node : Node} (ordered : root.Ordered) (below : location ≠ [])
    (found : root.get location = some node) (query : Location) :
    (root.removeAt location).holds query = if location <+: query then none else root.holds query := by
  obtain ⟨above, name, rfl⟩ := (List.eq_nil_or_concat' location).resolve_left below
  rw [get_append] at found
  obtain ⟨parent, isParent, isChild⟩ := Option.bind_eq_some_iff.mp found
  have orderedParent : parent.Ordered := ordered.get isParent
  unfold Node.removeAt
  rw [List.getLast?_concat, List.dropLast_concat]
  dsimp only
  rw [holds_modify isParent]
  by_cases starts : above <+: query
  · obtain ⟨rest, rfl⟩ := starts
    rw [if_pos (List.prefix_append _ _), List.drop_left, holds_append, isParent, Option.bind_some]
    simp only [List.prefix_append_right_inj]
    cases rest with
    | nil => rw [if_neg (by simp), holds_nil, holds_nil, value?_remove]
    | cons head tail =>
        rw [holds_cons, holds_cons, findNode_remove orderedParent]
        by_cases here : head = name
        · rw [if_pos here, if_pos (by simp [here]), Option.bind_none]
        · rw [if_neg here, if_neg fun inside => here (List.cons_prefix_cons.mp inside).1.symm]
  · rw [if_neg starts, if_neg fun inside => starts ((List.prefix_append _ _).trans inside)]

end Writing

end FlexConfig.Node
