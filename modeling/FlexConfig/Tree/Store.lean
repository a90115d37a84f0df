import FlexConfig.Foundation.Heap
import FlexConfig.Foundation.Insertion
import FlexConfig.Tree.XPath
import Mathlib.Data.Char
import Mathlib.Data.List.Lex
import Mathlib.Data.List.Nodup

/-! # Nodes as they are stored

A node is an object that others point to: a composite to its children, a child to its parent.
A tree is told together with the addresses of its nodes, and it is stored where every child points
back to its container. Such links leave no room for a node that is shared: a node is at one place
of one tree (`Stored.nodup_footprint`, `Stored.disjoint`).
-/

namespace FlexConfig

open Heap XPath

/-- What a node holds besides what all nodes have. -/
inductive Content where
  | leaf (value : Str)
  | composite (node_by_name : List (Str × Ref))
  deriving DecidableEq

/-- A node object. -/
structure Cell where
  name : Str
  parent : Option Ref
  schema_node : Option Ref
  content : Content
  deriving DecidableEq

abbrev Store := List Cell

namespace Store

def SetParent (node : Ref) (parent : Option Ref) (store : Store) : Store :=
  store.modify node fun cell => { cell with parent := parent }

def SetSchemaNode (node : Ref) (schema_node : Option Ref) (store : Store) : Store :=
  store.modify node fun cell => { cell with schema_node := schema_node }

/-- Give a composite other children. -/
def setNodes (this : Ref) (node_by_name : List (Str × Ref)) (store : Store) : Store :=
  store.modify this fun cell => { cell with content := .composite node_by_name }

/-- `Composite::Add`. A leaf has no such operation and is left alone. -/
def Add (this node : Ref) (store : Store) : Option Store := do
  let cell ← store[this]?
  let child ← store[node]?
  match cell.content with
  | .leaf _ => some store
  | .composite node_by_name =>
    let added := setNodes this (Keyed.insert child.name node node_by_name) store
    some (SetParent node (some this) added)

/-- `Composite::Remove`. -/
def Remove (this : Ref) (node_name : Str) (store : Store) : Option (Bool × Store) := do
  let cell ← store[this]?
  match cell.content with
  | .leaf _ => some (false, store)
  | .composite node_by_name =>
    match Keyed.find node_name node_by_name with
    | none => some (false, store)
    | some node =>
      let released := SetParent node none store
      some (true, setNodes this (Keyed.erase node_name node_by_name) released)

/-- `std::map::emplace` on the children of a composite: a name that is taken keeps its node. -/
def emplace (this : Ref) (name : Str) (node : Ref) (store : Store) : Option Store := do
  let cell ← store[this]?
  match cell.content with
  | .leaf _ => some store
  | .composite node_by_name =>
    match Keyed.find name node_by_name with
    | some _ => some store
    | none => some (setNodes this (Keyed.insert name node node_by_name) store)

/-- A new node of the name of another, with the given parent or else the parent of the other. -/
def makeLike (cell : Cell) (content : Content) (parent : Option Ref) (store : Store) : Store :=
  let copy_node := store.length
  let made := store ++ [⟨cell.name, none, none, content⟩]
  SetSchemaNode copy_node cell.schema_node (SetParent copy_node (parent.or cell.parent) made)

/-- `MakeCopy` of composites and leaves; the copy comes with the store it is in. -/
def MakeCopy : Nat → (this : Ref) → (parent : Option Ref) → Store → Option (Ref × Store)
  | 0, _, _, _ => none
  | fuel + 1, this, parent, store => do
    let copy_node := store.length
    let cell ← store[this]?
    match cell.content with
    | .leaf value => some (copy_node, makeLike cell (.leaf value) parent store)
    | .composite node_by_name =>
      let filled ← node_by_name.foldlM
        (fun store entry => do
          let copied ← MakeCopy fuel entry.2 (some copy_node) store
          emplace copy_node entry.1 copied.1 copied.2)
        (makeLike cell (.composite []) parent store)
      some (copy_node, filled)

/-- The children of a node; a leaf has none. -/
def nodesOf (this : Ref) (store : Store) : Option (List (Str × Ref)) := do
  let cell ← store[this]?
  match cell.content with
  | .leaf _ => some []
  | .composite node_by_name => some node_by_name

/-- A name comes behind the one that an iterator has passed. -/
def behind (passed : Option Str) (name : Str) : Bool :=
  match passed with
  | none => true
  | some last => decide (last < name)

section Accept

variable {τ : Type} (view : τ → Store) (visit : Ref → τ → Option (Bool × τ))

/-- The loop of `Composite::Accept`, which goes through the children as they are at each step.
The store is a part of the state that a visitor works on. -/
def acceptFrom : Nat → (this : Ref) → (passed : Option Str) → τ → Option τ
  | 0, _, _, _ => none
  | fuel + 1, this, passed, state => do
    let node_by_name ← nodesOf this (view state)
    match node_by_name.find? fun entry => behind passed entry.1 with
    | none => some state
    | some entry =>
      let visited ← visit entry.2 state
      if visited.1 then
        let below ← acceptFrom fuel entry.2 none visited.2
        acceptFrom fuel this (some entry.1) below
      else some visited.2

/-- `Accept` of composites and leaves. -/
def Accept (fuel : Nat) (this : Ref) (state : τ) : Option τ :=
  acceptFrom view visit fuel this none state

end Accept

end Store

/-- A tree with the addresses of its nodes. -/
inductive Placed where
  | leaf (address : Ref) (value : Str)
  | composite (address : Ref) (children : List (Str × Placed))

namespace Placed

def address : Placed → Ref
  | .leaf address _ => address
  | .composite address _ => address

mutual

/-- The addresses of the nodes of a tree. -/
def footprint : Placed → List Ref
  | .leaf address _ => [address]
  | .composite address children => address :: footprints children

def footprints : List (Str × Placed) → List Ref
  | [] => []
  | (_, child) :: rest => child.footprint ++ footprints rest

end

mutual

/-- A tree without its addresses. -/
def shape : Placed → Node
  | .leaf _ value => .leaf value
  | .composite _ children => .composite (shapes children)

def shapes : List (Str × Placed) → List (Str × Node)
  | [] => []
  | (name, child) :: rest => (name, child.shape) :: shapes rest

end

/-- How many nodes a tree has. -/
def size (tree : Placed) : Nat := tree.footprint.length

theorem address_mem_footprint (tree : Placed) : tree.address ∈ tree.footprint := by
  cases tree with
  | leaf => exact List.mem_cons_self
  | composite => exact List.mem_cons_self

theorem mem_footprints_iff {address : Ref} {children : List (Str × Placed)} :
    address ∈ footprints children ↔ ∃ entry ∈ children, address ∈ entry.2.footprint := by
  induction children with
  | nil => exact iff_of_false List.not_mem_nil fun ⟨_, impossible, _⟩ => List.not_mem_nil impossible
  | cons entry rest ih => rw [footprints, List.mem_append, ih, List.exists_mem_cons_iff]

theorem size_pos (tree : Placed) : 0 < tree.size :=
  List.length_pos_of_mem tree.address_mem_footprint

theorem shapes_eq (children : List (Str × Placed)) :
    shapes children = Keyed.mapValues shape children := by
  induction children with
  | nil => rfl
  | cons entry rest ih =>
      rw [shapes, ih]
      rfl

theorem keys_shapes (children : List (Str × Placed)) :
    Keyed.keys (shapes children) = Keyed.keys children := by
  rw [shapes_eq, Keyed.keys_mapValues]

/-- Children of the same shapes have the same names. -/
theorem keys_eq_of_shapes {children others : List (Str × Placed)}
    (same : shapes children = shapes others) : Keyed.keys children = Keyed.keys others := by
  rw [← keys_shapes, same, keys_shapes]

end Placed

open Placed

section Stored

variable (store : Store)

mutual

/-- A tree is in the store under a name and below a parent: each node has its parts, and its
children are stored below it. -/
def Stored (name : Str) (parent : Option Ref) : Placed → Prop
  | .leaf address value =>
    ∃ schema_node, store[address]? = some ⟨name, parent, schema_node, .leaf value⟩
  | .composite address children =>
    (∃ schema_node, store[address]? = some
      ⟨name, parent, schema_node, .composite (Keyed.mapValues Placed.address children)⟩) ∧
      (Keyed.keys children).Pairwise (· < ·) ∧ StoredChildren address children

def StoredChildren (parent : Ref) : List (Str × Placed) → Prop
  | [] => True
  | (name, child) :: rest => Stored name (some parent) child ∧ StoredChildren parent rest

end

variable {store} {name : Str} {parent : Option Ref} {tree : Placed}

theorem storedChildren_iff {parent : Ref} {children : List (Str × Placed)} :
    StoredChildren store parent children ↔
      ∀ entry ∈ children, Stored store entry.1 (some parent) entry.2 := by
  induction children with
  | nil => exact iff_of_true trivial fun _ impossible => absurd impossible List.not_mem_nil
  | cons entry rest ih => rw [StoredChildren, ih, List.forall_mem_cons]

/-- The node at the top of a stored tree. -/
theorem Stored.read (stored : Stored store name parent tree) : ∃ cell, store[tree.address]? =
    some cell ∧ cell.name = name ∧ cell.parent = parent := by
  cases tree with
  | leaf address value =>
      obtain ⟨schema_node, present⟩ := stored
      exact ⟨_, present, rfl, rfl⟩
  | composite address children =>
      obtain ⟨⟨schema_node, present⟩, _⟩ := stored
      exact ⟨_, present, rfl, rfl⟩

theorem Stored.sorted_shapes {address : Ref} {children : List (Str × Placed)}
    (stored : Stored store name parent (.composite address children)) :
    (Keyed.keys (shapes children)).Pairwise (· < ·) := by
  rw [keys_shapes]
  exact stored.2.1

mutual

theorem Stored.lt_length : ∀ {name : Str} {parent : Option Ref} (tree : Placed),
    Stored store name parent tree → ∀ address ∈ tree.footprint, address < store.length
  | _, _, .leaf _ _, stored, address, member => by
      obtain ⟨schema_node, present⟩ := stored
      rw [footprint, List.mem_singleton] at member
      exact member ▸ lt_length_of_read present
  | _, _, .composite _ children, stored, address, member => by
      obtain ⟨⟨schema_node, present⟩, _, below⟩ := stored
      rcases List.mem_cons.mp member with here | inside
      · exact here ▸ lt_length_of_read present
      · exact below.lt_length children address inside

theorem StoredChildren.lt_length : ∀ {parent : Ref} (children : List (Str × Placed)),
    StoredChildren store parent children →
      ∀ address ∈ footprints children, address < store.length
  | _, [], _, _, impossible => absurd impossible List.not_mem_nil
  | _, (_, child) :: rest, stored, address, member => by
      rcases List.mem_append.mp member with here | there
      · exact stored.1.lt_length child address here
      · exact stored.2.lt_length rest address there

end

section Kept

variable {next : Store} {touched : List Ref}

mutual

/-- A tree stays stored where none of its nodes is touched. -/
theorem Stored.kept (frame : Frame touched store next) :
    ∀ {name : Str} {parent : Option Ref} (tree : Placed), Stored store name parent tree →
      (∀ address ∈ tree.footprint, address ∉ touched) → Stored next name parent tree
  | _, _, .leaf address _, stored, apart => by
      obtain ⟨schema_node, present⟩ := stored
      exact ⟨schema_node, frame.read present (apart address List.mem_cons_self)⟩
  | _, _, .composite address children, stored, apart => by
      obtain ⟨⟨schema_node, present⟩, sorted, below⟩ := stored
      refine ⟨⟨schema_node, frame.read present (apart address List.mem_cons_self)⟩, sorted, ?_⟩
      exact below.kept frame children fun other inside => apart other (List.mem_cons_of_mem _ inside)

theorem StoredChildren.kept (frame : Frame touched store next) :
    ∀ {parent : Ref} (children : List (Str × Placed)), StoredChildren store parent children →
      (∀ address ∈ footprints children, address ∉ touched) → StoredChildren next parent children
  | _, [], _, _ => trivial
  | _, (_, child) :: rest, stored, apart =>
      ⟨stored.1.kept frame child fun address here => apart address (List.mem_append_left _ here),
        stored.2.kept frame rest fun address there => apart address (List.mem_append_right _ there)⟩

end

end Kept

section Links

/-- `Node::Parent`. -/
def Store.Parent (store : Store) (node : Ref) : Option Ref := store[node]?.bind Cell.parent

theorem Stored.parent_eq (stored : Stored store name parent tree) :
    store.Parent tree.address = parent := by
  obtain ⟨cell, present, _, parent_eq⟩ := stored.read
  rw [Store.Parent, present, Option.bind_some, parent_eq]

mutual

/-- From every node of a tree the parents lead up to its top. -/
theorem Stored.leadsUp : ∀ {name : Str} {parent : Option Ref} (tree : Placed),
    Stored store name parent tree → ∀ address ∈ tree.footprint,
      ∃ steps, climb store.Parent steps address = some tree.address
  | _, _, .leaf address _, _, other, member => by
      rw [footprint, List.mem_singleton] at member
      exact ⟨0, congrArg some member⟩
  | _, _, .composite address children, stored, other, member => by
      rcases List.mem_cons.mp member with here | inside
      · exact ⟨0, congrArg some here⟩
      · obtain ⟨steps, leads⟩ := stored.2.2.leadsUp children other inside
        exact ⟨steps + 1, leads⟩

theorem StoredChildren.leadsUp : ∀ {parent : Ref} (children : List (Str × Placed)),
    StoredChildren store parent children → ∀ address ∈ footprints children,
      ∃ steps, climb store.Parent (steps + 1) address = some parent
  | _, [], _, _, impossible => absurd impossible List.not_mem_nil
  | parent, (_, child) :: rest, stored, address, member => by
      rcases List.mem_append.mp member with here | there
      · obtain ⟨steps, leads⟩ := stored.1.leadsUp child address here
        refine ⟨steps, ?_⟩
        rw [climb_add, leads, Option.bind_some, climb, stored.1.parent_eq]
        rfl
      · exact stored.2.leadsUp rest address there

end

/-- The way up from a child is one step longer. -/
theorem Stored.climb_succ {parent top : Ref} {steps : Nat}
    (stored : Stored store name (some parent) tree)
    (leads : climb store.Parent steps parent = some top) :
    climb store.Parent (steps + 1) tree.address = some top := by
  rw [climb, stored.parent_eq]
  exact leads

/-- Trees at one address have one name. -/
theorem Stored.name_unique {other : Str} {above : Option Ref} {second : Placed}
    (stored : Stored store name parent tree) (storedSecond : Stored store other above second)
    (same : tree.address = second.address) : name = other := by
  obtain ⟨cell, present, rfl, _⟩ := stored.read
  obtain ⟨copy, presentSecond, rfl, _⟩ := storedSecond.read
  rw [same, presentSecond] at present
  cases present
  rfl

mutual

theorem Stored.nodup_below : ∀ {name : Str} {parent : Option Ref} {top : Ref} {depth : Nat}
    (tree : Placed), Stored store name parent tree → store.Parent top = none →
      climb store.Parent depth tree.address = some top → tree.footprint.Nodup
  | _, _, _, _, .leaf _ _, _, _, _ => List.nodup_singleton _
  | _, _, top, depth, .composite address children, stored, ends, leads => by
      have below := stored.2.2
      refine List.nodup_cons.mpr ⟨fun again => ?_, below.nodup_below children stored.2.1 ends leads⟩
      -- a way from the top down to itself would make the way up longer than it is
      obtain ⟨steps, back⟩ := below.leadsUp children address again
      have longer : climb store.Parent (steps + 1 + depth) address = some top := by
        rw [climb_add, back]
        exact leads
      have same := (climb_unique longer ends leads ends).1
      omega

theorem StoredChildren.nodup_below : ∀ {parent top : Ref} {depth : Nat}
    (children : List (Str × Placed)), StoredChildren store parent children →
      (Keyed.keys children).Pairwise (· < ·) → store.Parent top = none →
        climb store.Parent depth parent = some top → (footprints children).Nodup
  | _, _, _, [], _, _, _, _ => List.nodup_nil
  | parent, top, depth, (name, child) :: rest, stored, sorted, ends, leads => by
      obtain ⟨least, sortedRest⟩ := List.pairwise_cons.mp sorted
      have leadsChild := stored.1.climb_succ leads
      refine List.nodup_append.mpr ⟨stored.1.nodup_below child ends leadsChild,
        stored.2.nodup_below rest sortedRest ends leads, ?_⟩
      rintro address here _ there rfl
      obtain ⟨⟨other, sibling⟩, inRest, inside⟩ := mem_footprints_iff.mp there
      have storedSibling := storedChildren_iff.mp stored.2 _ inRest
      obtain ⟨steps, toChild⟩ := stored.1.leadsUp child address here
      obtain ⟨more, toSibling⟩ := storedSibling.leadsUp sibling address inside
      have viaChild : climb store.Parent (steps + (depth + 1)) address = some top := by
        rw [climb_add, toChild]
        exact leadsChild
      have viaSibling : climb store.Parent (more + (depth + 1)) address = some top := by
        rw [climb_add, toSibling]
        exact storedSibling.climb_succ leads
      have lengths := (climb_unique viaChild ends viaSibling ends).1
      have sameSteps : steps = more := by omega
      rw [← sameSteps, toChild] at toSibling
      have sameName := stored.1.name_unique storedSibling (Option.some.inj toSibling)
      exact (least other (List.mem_map_of_mem inRest)).ne sameName

end

/-- No node is at two places of a tree. -/
theorem Stored.nodup_footprint (stored : Stored store name none tree) : tree.footprint.Nodup := by
  have here : climb store.Parent 0 tree.address = some tree.address := rfl
  exact stored.nodup_below tree stored.parent_eq here

/-- Trees with different tops share no node. -/
theorem Stored.disjoint {other : Str} {second : Placed} (stored : Stored store name none tree)
    (storedSecond : Stored store other none second) (differ : tree.address ≠ second.address) :
    ∀ address ∈ tree.footprint, address ∉ second.footprint := by
  intro address here there
  obtain ⟨steps, toTop⟩ := stored.leadsUp tree address here
  obtain ⟨more, toSecond⟩ := storedSecond.leadsUp second address there
  exact differ (climb_unique toTop stored.parent_eq toSecond storedSecond.parent_eq).2

mutual

/-- The store tells what tree is at an address. -/
theorem Stored.unique : ∀ {name other : Str} {parent above : Option Ref} (tree second : Placed),
    Stored store name parent tree → Stored store other above second →
      tree.address = second.address → tree = second
  | _, _, _, _, .leaf address _, .leaf _ _, ⟨_, present⟩, ⟨_, presentSecond⟩, same => by
      cases same
      cases present.symm.trans presentSecond
      rfl
  | _, _, _, _, .leaf address _, .composite _ _, ⟨_, present⟩, ⟨⟨_, presentSecond⟩, _⟩, same => by
      cases same
      cases present.symm.trans presentSecond
  | _, _, _, _, .composite address _, .leaf _ _, ⟨⟨_, present⟩, _⟩, ⟨_, presentSecond⟩, same => by
      cases same
      cases present.symm.trans presentSecond
  | _, _, _, _, .composite address children, .composite _ others, ⟨⟨_, present⟩, _, below⟩,
      ⟨⟨_, presentSecond⟩, _, belowSecond⟩, same => by
      cases same
      have links : Keyed.mapValues Placed.address children =
          Keyed.mapValues Placed.address others := by
        have cells := Option.some.inj (present.symm.trans presentSecond)
        injection cells with _ _ _ contents
        injection contents
      rw [below.unique children others belowSecond links]

theorem StoredChildren.unique : ∀ {parent above : Ref} (children others : List (Str × Placed)),
    StoredChildren store parent children → StoredChildren store above others →
      Keyed.mapValues Placed.address children = Keyed.mapValues Placed.address others →
        children = others
  | _, _, [], [], _, _, _ => rfl
  | _, _, [], _ :: _, _, _, links => by cases links
  | _, _, _ :: _, [], _, _, links => by cases links
  | _, _, (name, child) :: rest, (other, second) :: others, stored, storedOthers, links => by
      obtain ⟨entries, linksRest⟩ := List.cons.inj links
      obtain ⟨rfl, sameAddress⟩ := Prod.mk.inj entries
      rw [stored.1.unique child second storedOthers.1 sameAddress,
        stored.2.unique rest others storedOthers.2 linksRest]

end

end Links

end Stored

end FlexConfig
