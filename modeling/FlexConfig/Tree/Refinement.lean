import FlexConfig.Tree.MakeCopy

/-! # Stored trees and trees of values

A visitor that only reads learns the same of a stored tree as of the tree of values that it
stores: `Accept` shows it the same nodes in the same order (`accept_refines`), a search finds the
same node (`findStored_refines`), and the names on the way up from a node are its location
(`namesUp_eq`).
-/

namespace FlexConfig

open Heap XPath Placed

namespace Placed

mutual

/-- The nodes below a tree in the order of a traversal: where they are stored, and what they are. -/
def visits : (location : Location) → Placed → List (Ref × Located)
  | _, .leaf _ _ => []
  | location, .composite _ children => visitsChildren location children

def visitsChildren : (location : Location) → List (Str × Placed) → List (Ref × Located)
  | _, [] => []
  | location, (name, child) :: rest =>
    (child.address, ⟨location ++ [name], child.shape⟩) :: child.visits (location ++ [name]) ++
      visitsChildren location rest

end

mutual

theorem visits_map : ∀ (location : Location) (tree : Placed),
    (tree.visits location).map Prod.snd = tree.shape.preorder location
  | _, .leaf _ _ => rfl
  | location, .composite _ children => visitsChildren_map location children

theorem visitsChildren_map : ∀ (location : Location) (children : List (Str × Placed)),
    (visitsChildren location children).map Prod.snd =
      Node.preorderChildren location (shapes children)
  | _, [] => rfl
  | location, (name, child) :: rest => by
      rw [visitsChildren, List.map_append, List.map_cons, visits_map (location ++ [name]) child,
        visitsChildren_map location rest, shapes, Node.preorderChildren]

end

end Placed

variable {store : Store}

mutual

/-- A node below a tree is stored as a tree of its own. -/
theorem Stored.of_visits : ∀ {name : Str} {parent : Option Ref} {location : Location}
    (tree : Placed), Stored store name parent tree → ∀ entry ∈ tree.visits location,
      ∃ above below, Stored store (nameOf entry.2.location) (some above) below ∧
        below.address = entry.1 ∧ below.shape = entry.2.node
  | _, _, _, .leaf _ _, _, _, impossible => absurd impossible List.not_mem_nil
  | _, _, _, .composite _ children, stored, entry, member => stored.2.2.of_visits children entry member

theorem StoredChildren.of_visits : ∀ {parent : Ref} {location : Location}
    (children : List (Str × Placed)), StoredChildren store parent children →
      ∀ entry ∈ visitsChildren location children,
        ∃ above below, Stored store (nameOf entry.2.location) (some above) below ∧
          below.address = entry.1 ∧ below.shape = entry.2.node
  | _, _, [], _, _, impossible => absurd impossible List.not_mem_nil
  | parent, location, (name, child) :: rest, stored, entry, member => by
      rcases List.mem_append.mp member with here | there
      · rcases List.mem_cons.mp here with top | below
        · refine ⟨parent, child, ?_, congrArg Prod.fst top.symm,
            congrArg (fun pair => pair.2.node) top.symm⟩
          rw [top, nameOf_concat]
          exact stored.1
        · exact stored.1.of_visits child entry below
      · exact stored.2.of_visits rest entry there

end

section Simulation

variable {τ σ : Type} {view : τ → Store} {visitStored : Ref → τ → Option (Bool × τ)}
  {visit : σ → Located → Bool × σ} {related : τ → σ → Prop}

/-- A visitor of stored nodes answers at a node as a visitor of values does. -/
def Simulates (related : τ → σ → Prop) (visitStored : Ref → τ → Option (Bool × τ))
    (visit : σ → Located → Bool × σ) (entry : Ref × Located) : Prop :=
  ∀ state value, related state value → ∃ next,
    visitStored entry.1 state = some ((visit value entry.2).1, next) ∧
      related next (visit value entry.2).2

variable (reads : ∀ state value, related state value → view state = store)

include reads

mutual

/-- `Accept` on a stored tree is `accept` on the tree of values. -/
theorem accept_refines : ∀ (tree : Placed) {fuel : Nat} {name : Str} {parent : Option Ref}
    {location : Location} {state : τ} {value : σ}, Stored store name parent tree → tree.size ≤ fuel →
      (∀ entry ∈ tree.visits location, Simulates related visitStored visit entry) →
        related state value →
          ∃ next, Store.Accept view visitStored fuel tree.address state = some next ∧
            related next (tree.shape.accept visit location value)
  | tree, 0, _, _, _, _, _, _, enough, _, _ => absurd enough (Nat.not_le_of_lt tree.size_pos)
  | .leaf address text, fuel + 1, name, parent, location, state, value, stored, _, _, alike => by
      obtain ⟨schema_node, present⟩ := stored
      have nodes : Store.nodesOf address (view state) = some [] := by
        rw [reads state value alike]
        exact Store.nodesOf_leaf present rfl
      exact ⟨state, Store.acceptFrom_end nodes fun _ impossible => absurd impossible List.not_mem_nil,
        alike⟩
  | .composite address children, fuel + 1, name, parent, location, state, value, stored, enough,
      simulates, alike => by
      obtain ⟨⟨schema_node, present⟩, sorted, below⟩ := stored
      exact acceptChildren_refines children (Store.nodesOf_eq present rfl) below enough
        (.start sorted) simulates alike

theorem acceptChildren_refines : ∀ (children : List (Str × Placed)) {fuel : Nat} {this : Ref}
    {present : List (Str × Ref)} {passed : Option Str} {location : Location} {state : τ}
    {value : σ}, Store.nodesOf this store = some (present ++ Keyed.mapValues address children) →
      StoredChildren store this children → (footprints children).length < fuel →
        Store.Progress present passed (Keyed.keys children) →
          (∀ entry ∈ visitsChildren location children,
            Simulates related visitStored visit entry) → related state value →
      ∃ next, Store.acceptFrom view visitStored fuel this passed state = some next ∧
        related next (Node.acceptChildren visit location (shapes children) value)
  | _, 0, _, _, _, _, _, _, _, _, enough, _, _, _ => absurd enough (Nat.not_lt_zero _)
  | [], fuel + 1, this, present, passed, location, state, value, nodes, _, _, progress, _, alike => by
      rw [← reads state value alike, Keyed.mapValues, List.map_nil, List.append_nil] at nodes
      exact ⟨state, Store.acceptFrom_end nodes progress.done, alike⟩
  | (name, child) :: rest, fuel + 1, this, present, passed, location, state, value, nodes, stored, enough,
      progress, simulates, alike => by
      obtain ⟨here, simulatesRest⟩ := List.forall_mem_append.mp simulates
      obtain ⟨simulatesTop, simulatesBelow⟩ := List.forall_mem_cons.mp here
      obtain ⟨visited, ran, alikeVisited⟩ := simulatesTop state value alike
      have positive : 0 < child.footprint.length := child.size_pos
      rw [footprints, List.length_append] at enough
      have nodesView : Store.nodesOf this (view state) = some
          (present ++ (name, child.address) :: Keyed.mapValues address rest) := by
        rw [reads state value alike]
        exact nodes
      rw [shapes, Node.acceptChildren]
      rcases answered : visit value ⟨location ++ [name], child.shape⟩ with ⟨answer, value'⟩
      rw [answered] at ran alikeVisited
      cases answer with
      | false => exact ⟨visited, Store.acceptFrom_refused nodesView progress ran, alikeVisited⟩
      | true =>
          have childEnough : child.size ≤ fuel := by
            rw [size]
            omega
          have restEnough : (footprints rest).length < fuel := by omega
          obtain ⟨below, accepted, alikeBelow⟩ :=
            accept_refines child stored.1 childEnough simulatesBelow alikeVisited
          have nodesRest : Store.nodesOf this store = some
              ((present ++ [(name, child.address)]) ++ Keyed.mapValues address rest) := by
            rw [List.append_assoc]
            exact nodes
          obtain ⟨next, ranRest, alikeNext⟩ := acceptChildren_refines rest nodesRest stored.2 restEnough
            (progress.next child.address) simulatesRest alikeBelow
          refine ⟨next, ?_, alikeNext⟩
          rw [Store.acceptFrom_next nodesView progress ran accepted]
          exact ranRest

end

end Simulation

section Find

/-- `NodeFinder::visit` on stored nodes. -/
def visitStored (wanted : Str) (store : Store) (node : Ref) (found : Option Ref) :
    Option (Bool × Option Ref) := do
  let cell ← store[node]?
  some (if cell.name = wanted then (false, some node) else (true, found))

/-- A search has found a stored node where the other has found its value. -/
def SameFound (tree : Placed) (location : Location) (found : Option Ref)
    (value : Option Located) : Prop :=
  (found = none ∧ value = none) ∨
    ∃ entry ∈ tree.visits location, found = some entry.1 ∧ value = some entry.2

/-- A search in a stored tree finds the node that the search in the tree of values finds. -/
theorem findStored_refines {name wanted : Str} {parent : Option Ref} {location : Location}
    {tree : Placed} {fuel : Nat} (stored : Stored store name parent tree) (enough : tree.size ≤ fuel) :
    ∃ found, Store.Accept (fun _ => store) (visitStored wanted store) fuel tree.address none =
        some found ∧
      SameFound tree location found (findByName wanted ⟨location, tree.shape⟩) := by
  have simulates : ∀ entry ∈ tree.visits location, Simulates (SameFound tree location)
      (visitStored wanted store) (NodeFinder.visit wanted) entry := by
    intro entry member found value alike
    obtain ⟨above, below, storedBelow, sameAddress, _⟩ := stored.of_visits tree entry member
    obtain ⟨cell, present, named, _⟩ := storedBelow.read
    rw [sameAddress] at present
    rw [visitStored, present, NodeFinder.visit, ← named]
    by_cases same : cell.name = wanted
    · refine ⟨some entry.1, ?_, .inr ⟨entry, member, rfl, ?_⟩⟩
      · rw [if_pos same]
        exact congrArg some (if_pos same)
      · rw [if_pos same]
    · refine ⟨found, ?_, ?_⟩
      · rw [if_neg same]
        exact congrArg some (if_neg same)
      · rw [if_neg same]
        exact alike
  exact accept_refines (fun _ _ _ => rfl) tree stored enough simulates (.inl ⟨rfl, rfl⟩)

end Find

section Names

/-- The first loop of `XPath::toString`: the names on the way up are pushed onto a stack, whose top
is at the head. -/
def namesUp (store : Store) : Nat → (processing_node : Option Ref) → (xpath_stack : List Str) →
    Option (List Str)
  | 0, _, _ => none
  | _ + 1, none, xpath_stack => some xpath_stack
  | fuel + 1, some node, xpath_stack => do
    let cell ← store[node]?
    namesUp store fuel cell.parent (cell.name :: xpath_stack)

/-- `XPath::toString` of a stored node: the names are printed from the top of the stack. -/
def toStringStored (fuel : Nat) (node : Ref) (store : Store) : Option Str := do
  let xpath_stack ← namesUp store fuel (some node) []
  some (xpath_stack.flatMap printName)

/-- The names on the way up from a node are known. -/
def LeadUp (store : Store) (node : Option Ref) (names : List Str) : Prop :=
  ∀ fuel stack, names.length < fuel → namesUp store fuel node stack = some (names ++ stack)

theorem Stored.leadUp {name : Str} {parent : Option Ref} {tree : Placed} {names : List Str}
    (stored : Stored store name parent tree) (up : LeadUp store parent names) :
    LeadUp store (some tree.address) (names ++ [name]) := by
  intro fuel stack enough
  obtain ⟨cell, present, named, isParent⟩ := stored.read
  rw [List.length_append] at enough
  cases fuel with
  | zero => exact absurd enough (Nat.not_lt_zero _)
  | succ fuel =>
      rw [namesUp, present]
      change namesUp store fuel cell.parent (cell.name :: stack) = _
      rw [named, isParent, up fuel (name :: stack) (Nat.lt_of_succ_lt_succ enough),
        List.append_assoc, List.singleton_append]

mutual

theorem Stored.namesUp_eq : ∀ {name : Str} {parent : Option Ref} {location : Location}
    {top : Str} (tree : Placed), Stored store name parent tree →
      LeadUp store (some tree.address) (top :: location) → ∀ entry ∈ tree.visits location,
        LeadUp store (some entry.1) (top :: entry.2.location)
  | _, _, _, _, .leaf _ _, _, _, _, impossible => absurd impossible List.not_mem_nil
  | _, _, _, _, .composite _ children, stored, up, entry, member =>
      stored.2.2.namesUp_eq children up entry member

theorem StoredChildren.namesUp_eq : ∀ {this : Ref} {location : Location} {top : Str}
    (children : List (Str × Placed)), StoredChildren store this children →
      LeadUp store (some this) (top :: location) → ∀ entry ∈ visitsChildren location children,
        LeadUp store (some entry.1) (top :: entry.2.location)
  | _, _, _, [], _, _, _, impossible => absurd impossible List.not_mem_nil
  | _, location, top, (name, child) :: rest, stored, up, entry, member => by
      have upChild : LeadUp store (some child.address) (top :: (location ++ [name])) :=
        stored.1.leadUp up
      rcases List.mem_append.mp member with here | there
      · rcases List.mem_cons.mp here with isChild | below
        · rw [isChild]
          exact upChild
        · exact stored.1.namesUp_eq child upChild entry below
      · exact stored.2.namesUp_eq rest up entry there

end

/-- The printed path of a stored node is that of its location. -/
theorem toStringStored_eq {root : Placed} (stored : Stored store ROOT_TOKEN none root)
    {entry : Ref × Located} (member : entry ∈ (root.address, ⟨[], root.shape⟩) :: root.visits [])
    {fuel : Nat} (enough : entry.2.location.length + 1 < fuel) :
    toStringStored fuel entry.1 store = some (XPath.toString entry.2.location) := by
  have nothing : LeadUp store none [] := by
    intro fuel stack enough
    cases fuel with
    | zero => exact absurd enough (Nat.not_lt_zero _)
    | succ fuel => rfl
  have upRoot : LeadUp store (some root.address) [ROOT_TOKEN] := stored.leadUp nothing
  have up : LeadUp store (some entry.1) (ROOT_TOKEN :: entry.2.location) := by
    rcases List.mem_cons.mp member with isRoot | below
    · rw [isRoot]
      exact upRoot
    · exact stored.namesUp_eq root upRoot entry below
  rw [toStringStored, up fuel [] enough, List.append_nil]
  rfl

end Names

end FlexConfig
