import FlexConfig.Tree.MakeCopy

/-! # Edits of a tree

What is done to a tree by `Add` and `Remove`, to its own nodes and to nodes made for it, stays
with these nodes (`Edits.frame`).
-/

namespace FlexConfig

open Heap Placed

/-- The children of these nodes are among them. -/
def Closed (owned : List Ref) (store : Store) : Prop :=
  ∀ this ∈ owned, ∀ links, Store.nodesOf this store = some links → ∀ entry ∈ links, entry.2 ∈ owned

/-- `Add` and `Remove` in any order on nodes that are owned, or that were made later. -/
inductive Edits : List Ref → Store → Store → Prop where
  | done {owned : List Ref} {store : Store} : Edits owned store store
  | make {owned : List Ref} {store last : Store} (cell : Cell)
      (bare : ∀ links, cell.content = .composite links → links = [])
      (rest : Edits (store.length :: owned) (store ++ [cell]) last) : Edits owned store last
  | add {owned : List Ref} {store next last : Store} {this node : Ref}
      (isOwned : this ∈ owned) (nodeOwned : node ∈ owned)
      (added : Store.Add this node store = some next) (rest : Edits owned next last) :
      Edits owned store last
  | remove {owned : List Ref} {store next last : Store} {this : Ref} {name : Str}
      {answer : Bool} (isOwned : this ∈ owned)
      (removed : Store.Remove this name store = some (answer, next)) (rest : Edits owned next last) :
      Edits owned store last

variable {owned : List Ref} {store next last : Store} {this node other : Ref}

theorem nodesOf_setParent (parent : Option Ref) :
    Store.nodesOf other (Store.SetParent node parent store) = Store.nodesOf other store := by
  unfold Store.nodesOf Store.SetParent
  by_cases same : node = other
  · rw [← same, List.getElem?_modify_eq]
    cases store[node]? with
    | none => rfl
    | some cell => rfl
  · rw [List.getElem?_modify_ne _ _ same]

theorem nodesOf_setNodes {links found : List (Str × Ref)}
    (nodes : Store.nodesOf other (Store.setNodes this links store) = some found) :
    Store.nodesOf other store = some found ∨ other = this ∧ found = links := by
  unfold Store.nodesOf Store.setNodes at nodes
  by_cases same : this = other
  · rw [← same, List.getElem?_modify_eq] at nodes
    cases read : store[this]? with
    | none =>
        rw [read] at nodes
        cases nodes
    | some cell =>
        rw [read] at nodes
        cases nodes
        exact .inr ⟨same.symm, rfl⟩
  · rw [List.getElem?_modify_ne _ _ same] at nodes
    exact .inl nodes

/-- What `Add` does: nothing to a leaf, and to a composite it gives a child. -/
theorem add_cases (added : Store.Add this node store = some next) :
    next = store ∨ ∃ child links, Store.nodesOf this store = some links ∧
      next = Store.SetParent node (some this)
        (Store.setNodes this (Keyed.insert child node links) store) := by
  unfold Store.Add at added
  obtain ⟨cell, read, added⟩ := Option.bind_eq_some_iff.mp added
  obtain ⟨child, readChild, added⟩ := Option.bind_eq_some_iff.mp added
  cases holds : cell.content with
  | leaf value =>
      rw [holds] at added
      cases added
      exact .inl rfl
  | composite links =>
      rw [holds] at added
      cases added
      exact .inr ⟨child.name, links, Store.nodesOf_eq read holds, rfl⟩

/-- What `Remove` does: nothing where there is no such child, and else it takes the child away. -/
theorem remove_cases {name : Str} {answer : Bool}
    (removed : Store.Remove this name store = some (answer, next)) :
    next = store ∨ ∃ node links, Store.nodesOf this store = some links ∧
      Keyed.find name links = some node ∧
      next = Store.setNodes this (Keyed.erase name links) (Store.SetParent node none store) := by
  unfold Store.Remove at removed
  obtain ⟨cell, read, removed⟩ := Option.bind_eq_some_iff.mp removed
  cases holds : cell.content with
  | leaf value =>
      rw [holds] at removed
      cases removed
      exact .inl rfl
  | composite links =>
      rw [holds] at removed
      cases found : Keyed.find name links with
      | none =>
          simp only [found] at removed
          cases removed
          exact .inl rfl
      | some node =>
          simp only [found] at removed
          cases removed
          exact .inr ⟨node, links, Store.nodesOf_eq read holds, found, rfl⟩

theorem nodesOf_append {cell : Cell} {links : List (Str × Ref)}
    (bare : ∀ links, cell.content = .composite links → links = [])
    (nodes : Store.nodesOf this (store ++ [cell]) = some links) :
    Store.nodesOf this store = some links ∨ links = [] := by
  by_cases old : this < store.length
  · rw [Store.nodesOf, List.getElem?_append_left old] at nodes
    exact .inl nodes
  · obtain ⟨read, present, nodes⟩ := Option.bind_eq_some_iff.mp nodes
    rw [List.getElem?_append_right (Nat.le_of_not_lt old), List.getElem?_singleton] at present
    split at present
    · cases present
      cases holds : cell.content with
      | leaf value =>
          rw [holds] at nodes
          cases nodes
          exact .inr rfl
      | composite others =>
          rw [holds] at nodes
          cases nodes
          exact .inr (bare _ holds)
    · cases present

namespace Closed

variable (closed : Closed owned store)

include closed

theorem make {cell : Cell} (bare : ∀ links, cell.content = .composite links → links = []) :
    Closed (store.length :: owned) (store ++ [cell]) := by
  intro this member links nodes entry inside
  rcases nodesOf_append bare nodes with before | empty
  · rcases List.mem_cons.mp member with fresh | isOwned
    · obtain ⟨read, present, _⟩ := Option.bind_eq_some_iff.mp before
      exact absurd (lt_length_of_read present) (fresh ▸ lt_irrefl _)
    · exact List.mem_cons_of_mem _ (closed this isOwned links before entry inside)
  · rw [empty] at inside
    cases inside

theorem add (isOwned : this ∈ owned) (nodeOwned : node ∈ owned)
    (added : Store.Add this node store = some next) : Closed owned next ∧ Frame owned store next := by
  rcases add_cases added with rfl | ⟨child, links, before, rfl⟩
  · exact ⟨closed, Frame.refl _ _⟩
  refine ⟨fun other member found nodes entry inside => ?_, ?_⟩
  · rw [nodesOf_setParent] at nodes
    rcases nodesOf_setNodes nodes with old | ⟨_, rfl⟩
    · exact closed other member found old entry inside
    · rcases Keyed.mem_of_mem_insert inside with rfl | present
      · exact nodeOwned
      · exact closed this isOwned links before entry present
  · have first : Frame owned store (Store.setNodes this (Keyed.insert child node links) store) :=
      Store.frame_setNodes.mono fun address member _ => List.mem_singleton.mp member ▸ isOwned
    refine first.trans (Frame.modify node _ _) fun address member _ => ?_
    exact List.mem_singleton.mp member ▸ nodeOwned

theorem remove {name : Str} {answer : Bool} (isOwned : this ∈ owned)
    (removed : Store.Remove this name store = some (answer, next)) :
    Closed owned next ∧ Frame owned store next := by
  rcases remove_cases removed with rfl | ⟨node, links, before, found, rfl⟩
  · exact ⟨closed, Frame.refl _ _⟩
  have nodeOwned : node ∈ owned := closed this isOwned links before _ (Keyed.mem_of_find found)
  refine ⟨fun other member links' nodes entry inside => ?_, ?_⟩
  · rcases nodesOf_setNodes nodes with old | ⟨_, rfl⟩
    · rw [nodesOf_setParent] at old
      exact closed other member links' old entry inside
    · exact closed this isOwned links before entry (Keyed.mem_of_mem_erase inside)
  · have first : Frame owned store (Store.SetParent node none store) :=
      (Frame.modify node _ _).mono fun address member _ => List.mem_singleton.mp member ▸ nodeOwned
    refine first.trans Store.frame_setNodes fun address member _ => ?_
    exact List.mem_singleton.mp member ▸ isOwned

end Closed

/-- Edits on closed nodes touch no other ones. -/
theorem Edits.frame (edits : Edits owned store last) (closed : Closed owned store) :
    Frame owned store last := by
  induction edits with
  | done => exact Frame.refl _ _
  | @make owned store last cell bare rest ih =>
      refine ((Frame.append store [cell]).mono fun _ impossible => ?_).trans (ih (closed.make bare))
        fun address member old => ?_
      · exact absurd impossible List.not_mem_nil
      · exact (List.mem_cons.mp member).resolve_left old.ne
  | add isOwned nodeOwned added rest ih =>
      obtain ⟨stillClosed, frame⟩ := closed.add isOwned nodeOwned added
      exact frame.trans (ih stillClosed) fun _ member _ => member
  | remove isOwned removed rest ih =>
      obtain ⟨stillClosed, frame⟩ := closed.remove isOwned removed
      exact frame.trans (ih stillClosed) fun _ member _ => member

mutual

/-- The nodes of a stored tree are closed. -/
theorem Stored.closed : ∀ {name : Str} {parent : Option Ref} (tree : Placed),
    Stored store name parent tree → Closed tree.footprint store
  | _, _, .leaf address value, ⟨_, present⟩, this, member, links, nodes, entry, inside => by
      rw [footprint, List.mem_singleton] at member
      rw [member, Store.nodesOf_leaf present rfl] at nodes
      cases nodes
      cases inside
  | _, _, .composite address children, ⟨⟨_, present⟩, _, below⟩, this, member, links, nodes, entry,
      inside => by
      rcases List.mem_cons.mp member with here | isBelow
      · rw [here, Store.nodesOf_eq present rfl] at nodes
        cases nodes
        obtain ⟨child, isChild, rfl⟩ := List.mem_map.mp inside
        exact List.mem_cons_of_mem _
          (mem_footprints_iff.mpr ⟨child, isChild, child.2.address_mem_footprint⟩)
      · exact List.mem_cons_of_mem _ (below.closed children this isBelow links nodes entry inside)

theorem StoredChildren.closed : ∀ {parent : Ref} (children : List (Str × Placed)),
    StoredChildren store parent children → Closed (footprints children) store
  | _, [], _, _, impossible, _, _, _, _ => absurd impossible List.not_mem_nil
  | _, (_, child) :: rest, stored, this, member, links, nodes, entry, inside => by
      rcases List.mem_append.mp member with here | there
      · exact List.mem_append_left _ (stored.1.closed child this here links nodes entry inside)
      · exact List.mem_append_right _ (stored.2.closed rest this there links nodes entry inside)

end

end FlexConfig
