import FlexConfig.Tree.MakeCopy

/-! # The copy of a configuration

A candidate config is worked out on a copy of the running config. The visitor that makes the copy
puts the copy of a node into the root of the copy where the container of the node is the root, and
otherwise into the container itself, so that below the first level the copies take the places of
the nodes in the very tree that is traversed. Both trees come out whole all the same, and apart
from each other. But the root is told by its name: what is in an inner container of that name is
put into the root of the copy, too.
-/

namespace FlexConfig

open Heap XPath Placed

def ROOT_TREE_CONFIG_NAME : Str := "/".toList

namespace NodeCopyMakerVisitor

/-- The node that the copy of a child of `parent` is put into. -/
def containerOf (root_config : Ref) (parent : Option Ref) (store : Store) :
    Option Ref :=
  match parent with
  | none => some root_config
  | some parent_node => do
    let cell ← store[parent_node]?
    some (if cell.name = ROOT_TREE_CONFIG_NAME then root_config else parent_node)

/-- `NodeCopyMakerVisitor::visit`; the root of the copy is the one field of the visitor. -/
def visit (fuel : Nat) (root_config node : Ref) (store : Store) : Option (Bool × Store) := do
  let cell ← store[node]?
  let parent_node ← containerOf root_config cell.parent store
  let new_node ← Store.MakeCopy fuel node (some parent_node) store
  let added ← Store.Add parent_node new_node.1 new_node.2
  some (true, added)

/-- The copy that a new visitor has made of a tree after `Accept`. -/
def getNodeConfigCopyStored (fuel : Nat) (root : Ref) (store : Store) : Option (Ref × Store) := do
  let root_config := store.length
  let made := store ++ [⟨ROOT_TREE_CONFIG_NAME, none, none, .composite []⟩]
  let copied ← Store.Accept id (visit fuel root_config) fuel root made
  some (root_config, copied)

end NodeCopyMakerVisitor

open NodeCopyMakerVisitor

section Visit

/-- The copy of a tree was put into a composite, under the name of the tree. -/
structure Entered (into : Ref) (store next : Store) (cell : Cell) (links : List (Str × Ref))
    (name : Str) (tree copy : Placed) : Prop where
  frame : Frame [into] store next
  read : next[into]? = some
    { cell with content := .composite (Keyed.insert name copy.address links) }
  stored : Stored next name (some into) copy
  shape : copy.shape = tree.shape
  fresh : ∀ address ∈ copy.footprint, store.length ≤ address

variable {store : Store} {into : Ref} {cell : Cell} {links : List (Str × Ref)} {name : Str}

theorem add_copy {parent : Option Ref} {tree : Placed} {fuel : Nat}
    (stored : Stored store name parent tree) (enough : tree.size ≤ fuel)
    (read : store[into]? = some cell) (holds : cell.content = .composite links) :
    ∃ copy grown next, Store.MakeCopy fuel tree.address (some into) store =
        some (copy.address, grown) ∧ Store.Add into copy.address grown = some next ∧
      Entered into store next cell links name tree copy := by
  obtain ⟨copy, grown, ran, copied⟩ :=
    @Store.makeCopy_spec tree fuel store name parent (some into) stored enough
  have readGrown : grown[into]? = some cell := copied.frame.read read List.not_mem_nil
  have old := lt_length_of_read read
  have apart : ∀ address ∈ copy.footprint, address ∉ [into] := fun address member here =>
    Nat.not_le_of_lt old (List.mem_singleton.mp here ▸ copied.fresh address member)
  let linked : Store := Store.setNodes into (Keyed.insert name copy.address links) grown
  have frameLinked : Frame [into] grown linked := Store.frame_setNodes
  have storedLinked : Stored linked name (some into) copy :=
    copied.stored.kept frameLinked copy apart
  obtain ⟨copyCell, readCopy, named, hasParent⟩ := copied.stored.read
  have added : Store.Add into copy.address grown = some linked := by
    -- the copy was made with its parent, so that it is not set to another one
    have readLinked : linked[copy.address]? = some copyCell :=
      frameLinked.read readCopy (apart _ copy.address_mem_footprint)
    have fixed : { copyCell with parent := some into } = copyCell := by
      rw [← show copyCell.parent = some into from hasParent]
    have same : Store.SetParent copy.address (some into) linked = linked :=
      modify_of_fixed readLinked fixed
    rw [Store.add_eq readGrown readCopy holds, named]
    exact congrArg some same
  refine ⟨copy, grown, linked, ran, added, ?_, Store.read_setNodes readGrown, storedLinked,
    copied.shape, copied.fresh⟩
  exact (copied.frame.mono fun _ impossible => absurd impossible List.not_mem_nil).trans frameLinked
    fun _ member _ => member

theorem visit_spec {root_config this : Ref} {container : Cell} {child : Placed} {fuel : Nat}
    (stored : Stored store name (some this) child) (enough : child.size ≤ fuel)
    (within : store[this]? = some container)
    (goes : (if container.name = ROOT_TREE_CONFIG_NAME then root_config else this) = into)
    (read : store[into]? = some cell) (holds : cell.content = .composite links) :
    ∃ copy next, visit fuel root_config child.address store = some (true, next) ∧
      Entered into store next cell links name child copy := by
  obtain ⟨copy, grown, next, ran, added, entered⟩ := add_copy stored enough read holds
  obtain ⟨childCell, readChild, _, hasParent⟩ := stored.read
  refine ⟨copy, next, ?_, entered⟩
  simp only [visit, readChild, hasParent, containerOf, within, goes, ran, added, Option.bind_eq_bind,
    Option.bind_some]

end Visit

section Carried

/-- The container of a node bears the name of the root. -/
def InNamedRoot (visited : Located) : Prop := parentNameOf visited.location = ROOT_TREE_CONFIG_NAME

instance : DecidablePred InNamedRoot := fun visited =>
  inferInstanceAs (Decidable (parentNameOf visited.location = ROOT_TREE_CONFIG_NAME))

/-- The names and nodes whose container bears the name of the root, in the order of a traversal. -/
def rootward (nodes : List Located) : List (Str × Node) :=
  (nodes.filter InNamedRoot).map fun visited => (nameOf visited.location, visited.node)

theorem rootward_append (first second : List Located) :
    rootward (first ++ second) = rootward first ++ rootward second := by
  rw [rootward, List.filter_append, List.map_append]
  rfl

theorem inNamedRoot_concat_iff {location : Location} {name : Str} {node : Node} :
    InNamedRoot ⟨location ++ [name], node⟩ ↔ nameOf location = ROOT_TREE_CONFIG_NAME := by
  rw [InNamedRoot, parentNameOf, List.dropLast_concat]

theorem rootward_cons_of_root {location : Location} (name : Str) (node : Node) (rest : List Located)
    (root : nameOf location = ROOT_TREE_CONFIG_NAME) :
    rootward (⟨location ++ [name], node⟩ :: rest) = (name, node) :: rootward rest := by
  rw [rootward, List.filter_cons, if_pos (decide_eq_true (inNamedRoot_concat_iff.mpr root)),
    List.map_cons, nameOf_concat]
  rfl

theorem rootward_cons_of_ne {location : Location} (name : Str) (node : Node) (rest : List Located)
    (other : nameOf location ≠ ROOT_TREE_CONFIG_NAME) :
    rootward (⟨location ++ [name], node⟩ :: rest) = rootward rest := by
  have left : ¬ InNamedRoot ⟨location ++ [name], node⟩ := mt inNamedRoot_concat_iff.mp other
  rw [rootward, List.filter_cons, if_neg fun kept => left (of_decide_eq_true kept)]
  rfl

/-- The root of the copy is a composite. -/
def IsComposite (store : Store) (root_config : Ref) : Prop :=
  ∃ cell links, store[root_config]? = some cell ∧ cell.content = .composite links

/-- Copies were put into the root of the copy, and besides only some nodes were touched. -/
structure Carried (root_config : Ref) (touched : List Ref) (store next : Store)
    (added : List (Str × Placed)) (nodes : List (Str × Node)) : Prop where
  frame : Frame (root_config :: touched) store next
  read : ∀ cell links, store[root_config]? = some cell → cell.content = .composite links →
    next[root_config]? = some
      { cell with content := .composite (Keyed.insertAll (Keyed.mapValues address added) links) }
  stored : StoredChildren next root_config added
  shape : shapes added = nodes
  fresh : ∀ address ∈ footprints added, store.length ≤ address

theorem footprints_append (first second : List (Str × Placed)) :
    footprints (first ++ second) = footprints first ++ footprints second := by
  induction first with
  | nil => rfl
  | cons entry rest ih => rw [List.cons_append, footprints, footprints, ih, List.append_assoc]

namespace Carried

variable {root_config : Ref} {touched others : List Ref} {store next last : Store}
  {first second : List (Str × Placed)} {nodes more : List (Str × Node)}

theorem isComposite (carried : Carried root_config touched store next first nodes)
    (composite : IsComposite store root_config) : IsComposite next root_config := by
  obtain ⟨cell, links, read, holds⟩ := composite
  exact ⟨_, _, carried.read cell links read holds, rfl⟩

/-- Nothing is put into the root of the copy where something else is touched. -/
theorem of_frame (frame : Frame touched store next) (apart : root_config ∉ touched) :
    Carried root_config touched store next [] [] := by
  refine ⟨frame.mono fun _ member _ => List.mem_cons_of_mem _ member, ?_, trivial, rfl, ?_⟩
  · intro cell links read holds
    rw [frame.read read apart, Keyed.mapValues, List.map_nil, Keyed.insertAll, List.foldl_nil, ← holds]
  · exact fun _ impossible => absurd impossible List.not_mem_nil

theorem mono (carried : Carried root_config touched store next first nodes)
    (within : ∀ address ∈ touched, address ∈ others) :
    Carried root_config others store next first nodes := by
  refine ⟨carried.frame.mono fun address member _ => ?_, carried.read, carried.stored, carried.shape,
    carried.fresh⟩
  exact (List.mem_cons.mp member).elim (fun here => here ▸ List.mem_cons_self)
    fun there => List.mem_cons_of_mem _ (within address there)

theorem trans (one : Carried root_config touched store next first nodes)
    (two : Carried root_config others next last second more)
    (old : ∀ address ∈ root_config :: others, address < store.length)
    (within : ∀ address ∈ others, address ∈ touched) :
    Carried root_config touched store last (first ++ second) (nodes ++ more) := by
  have frame : Frame (root_config :: touched) store last :=
    one.frame.trans two.frame fun address member _ =>
      (List.mem_cons.mp member).elim (fun here => here ▸ List.mem_cons_self)
        fun there => List.mem_cons_of_mem _ (within address there)
  refine ⟨frame, ?_, ?_, ?_, ?_⟩
  · intro cell links read holds
    have readNext := one.read cell links read holds
    rw [two.read _ _ readNext rfl, Keyed.mapValues, Keyed.mapValues, Keyed.mapValues, List.map_append,
      Keyed.insertAll_append]
  · have firstKept : StoredChildren last root_config first :=
      one.stored.kept two.frame first fun address member touched =>
        Nat.not_lt_of_le (one.fresh address member) (old address touched)
    rw [storedChildren_iff, List.forall_mem_append]
    exact ⟨storedChildren_iff.mp firstKept, storedChildren_iff.mp two.stored⟩
  · rw [shapes_eq, Keyed.mapValues, List.map_append, ← one.shape, ← two.shape, shapes_eq, shapes_eq]
    rfl
  · intro address member
    rw [footprints_append, List.mem_append] at member
    rcases member with here | there
    · exact one.fresh address here
    · exact one.frame.grows.trans (two.fresh address there)

end Carried

end Carried

section Traversed

/-- A tree has taken the place of another one of the same shape; its nodes are those of the other
or new ones. -/
structure Replaced (name : Str) (parent : Option Ref) (store next : Store)
    (tree later : Placed) : Prop where
  stored : Stored next name parent later
  shape : later.shape = tree.shape
  places : ∀ address ∈ later.footprint, address ∈ tree.footprint ∨ store.length ≤ address

/-- What `Accept` by the copy maker does to a tree at a location. -/
def Traverse (fuel copyFuel : Nat) (root_config : Ref) (location : Location) (name : Str)
    (parent : Option Ref) (tree : Placed) (store : Store) : Prop :=
  ∃ next later added,
    Store.Accept id (visit copyFuel root_config) fuel tree.address store = some next ∧
      later.address = tree.address ∧ Replaced name parent store next tree later ∧
      Carried root_config tree.footprint store next added
        (rootward (tree.shape.preorder location))

/-- A traversal is at a child of a composite, some children having been passed. -/
structure AtChild (copyFuel : Nat) (root_config this : Ref) (location : Location) (store : Store)
    (cell : Cell) (present : List (Str × Ref)) (name : Str) (child : Placed)
    (behind : List (Str × Ref)) : Prop where
  stored : Stored store name (some this) child
  enough : child.size ≤ copyFuel
  read : store[this]? = some cell
  named : cell.name = nameOf location
  holds : cell.content = .composite (present ++ (name, child.address) :: behind)
  less : ∀ other ∈ Keyed.keys present, other < name
  composite : IsComposite store root_config
  differs : this ≠ root_config
  outside : ∀ address ∈ child.footprint, address ≠ this ∧ address ≠ root_config

/-- The child was visited, and then traversed; it is still there or its copy is. -/
def PassesBy (fuel copyFuel : Nat) (root_config this : Ref) (location : Location) (store : Store)
    (cell : Cell) (present : List (Str × Ref)) (name : Str) (child : Placed)
    (behind : List (Str × Ref)) : Prop :=
  ∃ visited next held added,
    visit copyFuel root_config child.address store = some (true, visited) ∧
      Store.Accept id (visit copyFuel root_config) fuel child.address visited = some next ∧
      next[this]? = some
        { cell with content := .composite (present ++ (name, held.address) :: behind) } ∧
      Replaced name (some this) store next child held ∧
      Carried root_config (this :: child.footprint) store next added
        (rootward (⟨location ++ [name], child.shape⟩ ::
          child.shape.preorder (location ++ [name])))

section Child

variable {fuel copyFuel : Nat} {root_config this : Ref} {location : Location} {name : Str}
  {store : Store} {child : Placed} {cell : Cell} {present behind : List (Str × Ref)}

theorem AtChild.apart
    (here : AtChild copyFuel root_config this location store cell present name child behind) :
    this ∉ root_config :: child.footprint := fun member =>
  (List.mem_cons.mp member).elim here.differs fun inside => (here.outside this inside).1 rfl

/-- A child of a container that bears the name of the root: its copy goes to the root of the copy,
and the child stays where it is. -/
theorem AtChild.passesBy_of_root
    (here : AtChild copyFuel root_config this location store cell present name child behind)
    (root : cell.name = ROOT_TREE_CONFIG_NAME)
    (accepts : ∀ visited, Stored visited name (some this) child → IsComposite visited root_config →
      Traverse fuel copyFuel root_config (location ++ [name]) name (some this) child visited) :
    PassesBy fuel copyFuel root_config this location store cell present name child behind := by
  obtain ⟨rootCell, links, readRoot, holdsRoot⟩ := here.composite
  obtain ⟨copy, visited, ran, entered⟩ :=
    visit_spec here.stored here.enough here.read (if_pos root) readRoot holdsRoot
  have carriedCopy : Carried root_config [] store visited [(name, copy)] [(name, child.shape)] := by
    refine ⟨entered.frame, ?_, ⟨entered.stored, trivial⟩, ?_, ?_⟩
    · intro other otherLinks read holdsOther
      cases readRoot.symm.trans read
      cases holdsRoot.symm.trans holdsOther
      exact entered.read
    · rw [shapes, entered.shape]
      rfl
    · intro address member
      rw [footprints, footprints, List.append_nil] at member
      exact entered.fresh address member
  have childVisited : Stored visited name (some this) child :=
    here.stored.kept entered.frame child fun address member at_root =>
      (here.outside address member).2 (List.mem_singleton.mp at_root)
  obtain ⟨next, later, added, accepted, sameAddress, replaced, carried⟩ :=
    accepts visited childVisited (carriedCopy.isComposite here.composite)
  have readVisited : visited[this]? = some cell :=
    entered.frame.read here.read fun at_root => here.differs (List.mem_singleton.mp at_root)
  refine ⟨visited, next, later, (name, copy) :: added, ran, accepted, ?_, ?_, ?_⟩
  · rw [carried.frame.read readVisited here.apart, sameAddress, ← here.holds]
  · refine ⟨replaced.stored, replaced.shape, fun address member => ?_⟩
    exact (replaced.places address member).imp_right entered.frame.grows.trans
  · rw [rootward_cons_of_root name child.shape _ (here.named.symm.trans root)]
    refine (carriedCopy.mono fun _ impossible => absurd impossible List.not_mem_nil).trans carried
      (fun address member => ?_) fun _ member => List.mem_cons_of_mem _ member
    rcases List.mem_cons.mp member with at_root | inside
    · exact at_root ▸ lt_length_of_read readRoot
    · exact here.stored.lt_length child address inside

/-- A child of another container: its copy takes its place. -/
theorem AtChild.passesBy_of_ne
    (here : AtChild copyFuel root_config this location store cell present name child behind)
    (other : cell.name ≠ ROOT_TREE_CONFIG_NAME)
    (accepts : ∀ visited, Stored visited name (some this) child → IsComposite visited root_config →
      Traverse fuel copyFuel root_config (location ++ [name]) name (some this) child visited) :
    PassesBy fuel copyFuel root_config this location store cell present name child behind := by
  obtain ⟨rootCell, links, readRoot, holdsRoot⟩ := here.composite
  obtain ⟨copy, visited, ran, entered⟩ :=
    visit_spec here.stored here.enough here.read (if_neg other) here.read here.holds
  have carriedNothing : Carried root_config [this] store visited [] [] :=
    .of_frame entered.frame fun member => here.differs (List.mem_singleton.mp member).symm
  have childVisited : Stored visited name (some this) child :=
    here.stored.kept entered.frame child fun address member at_this =>
      (here.outside address member).1 (List.mem_singleton.mp at_this)
  obtain ⟨next, later, added, accepted, sameAddress, replaced, carried⟩ :=
    accepts visited childVisited (carriedNothing.isComposite here.composite)
  have old : ∀ address ∈ root_config :: child.footprint, address < store.length :=
    List.forall_mem_cons.mpr ⟨lt_length_of_read readRoot, here.stored.lt_length child⟩
  refine ⟨visited, next, copy, added, ran, accepted, ?_, ⟨?_, entered.shape, ?_⟩, ?_⟩
  · have inPlace : Keyed.insert name copy.address (present ++ (name, child.address) :: behind) =
        present ++ (name, copy.address) :: behind := by
      rw [Keyed.insert_append here.less, Keyed.insert, if_pos rfl]
    rw [carried.frame.read entered.read here.apart, inPlace]
  · exact entered.stored.kept carried.frame copy fun address member touched =>
      Nat.not_lt_of_le (entered.fresh address member) (old address touched)
  · exact fun address member => .inr (entered.fresh address member)
  · rw [rootward_cons_of_ne name child.shape _ fun root => other (here.named.trans root)]
    refine (carriedNothing.mono fun address member => ?_).trans carried old
      fun _ member => List.mem_cons_of_mem _ member
    exact List.mem_singleton.mp member ▸ List.mem_cons_self

theorem AtChild.passesBy
    (here : AtChild copyFuel root_config this location store cell present name child behind)
    (accepts : ∀ visited, Stored visited name (some this) child → IsComposite visited root_config →
      Traverse fuel copyFuel root_config (location ++ [name]) name (some this) child visited) :
    PassesBy fuel copyFuel root_config this location store cell present name child behind := by
  by_cases root : cell.name = ROOT_TREE_CONFIG_NAME
  · exact here.passesBy_of_root root accepts
  · exact here.passesBy_of_ne root accepts

end Child

/-- The loop over the children of a composite is at the children that were not passed yet. -/
structure AtChildren (copyFuel : Nat) (root_config this : Ref) (location : Location)
    (store : Store) (cell : Cell) (present : List (Str × Ref)) (passed : Option Str)
    (children : List (Str × Placed)) : Prop where
  stored : StoredChildren store this children
  enough : (footprints children).length ≤ copyFuel
  read : store[this]? = some cell
  named : cell.name = nameOf location
  holds : cell.content = .composite (present ++ Keyed.mapValues address children)
  progress : Store.Progress present passed (Keyed.keys children)
  distinct : (footprints children).Nodup
  composite : IsComposite store root_config
  differs : this ≠ root_config
  outside : ∀ address ∈ footprints children, address ≠ this ∧ address ≠ root_config

/-- Children of the same names and shapes have taken the places of others. -/
structure ReplacedChildren (this : Ref) (store next : Store)
    (children later : List (Str × Placed)) : Prop where
  stored : StoredChildren next this later
  shape : shapes later = shapes children
  places : ∀ address ∈ footprints later, address ∈ footprints children ∨ store.length ≤ address

section Children

variable {copyFuel : Nat} {root_config this : Ref} {location : Location} {store next : Store}
  {cell : Cell} {present : List (Str × Ref)} {passed : Option Str} {name : Str}
  {child held : Placed} {rest : List (Str × Placed)} {added : List (Str × Placed)}
  {nodes : List (Str × Node)}

theorem AtChildren.head (at_children : AtChildren copyFuel root_config this location store cell
    present passed ((name, child) :: rest)) : AtChild copyFuel root_config this location store cell
      present name child (Keyed.mapValues address rest) where
  stored := at_children.stored.1
  enough := by
    have enough := at_children.enough
    rw [footprints, List.length_append] at enough
    exact Nat.le_of_add_right_le enough
  read := at_children.read
  named := at_children.named
  holds := at_children.holds
  less := fun other member => at_children.progress.less other member name List.mem_cons_self
  composite := at_children.composite
  differs := at_children.differs
  outside := fun address member => at_children.outside address (List.mem_append_left _ member)

/-- When a child was passed, the loop is at the children behind it. -/
theorem AtChildren.tail (at_children : AtChildren copyFuel root_config this location store cell
      present passed ((name, child) :: rest))
    (read : next[this]? = some { cell with
      content := .composite (present ++ (name, held.address) :: Keyed.mapValues address rest) })
    (carried : Carried root_config (this :: child.footprint) store next added nodes) :
    AtChildren copyFuel root_config this location next
      { cell with
        content := .composite (present ++ (name, held.address) :: Keyed.mapValues address rest) }
      (present ++ [(name, held.address)]) (some name) rest := by
  obtain ⟨_, distinctRest, disjoint⟩ := List.nodup_append.mp at_children.distinct
  have lengths := at_children.enough
  rw [footprints, List.length_append] at lengths
  have outsideRest : ∀ address ∈ footprints rest, address ≠ this ∧ address ≠ root_config :=
    fun address member => at_children.outside address (List.mem_append_right _ member)
  refine ⟨?_, Nat.le_of_add_left_le lengths, read, at_children.named, ?_,
    at_children.progress.next held.address, distinctRest, carried.isComposite at_children.composite,
    at_children.differs, outsideRest⟩
  · refine at_children.stored.2.kept carried.frame rest fun address member touched => ?_
    rcases List.mem_cons.mp touched with at_root | touched
    · exact (outsideRest address member).2 at_root
    · rcases List.mem_cons.mp touched with at_this | inside
      · exact (outsideRest address member).1 at_this
      · exact disjoint address inside address member rfl
  · rw [List.append_assoc]
    rfl

end Children

mutual

theorem accept_spec : ∀ (tree : Placed) {fuel copyFuel : Nat} {root_config : Ref}
    {location : Location} {name : Str} {parent : Option Ref} {store : Store},
      Stored store name parent tree → name = nameOf location → tree.size ≤ fuel →
        tree.size ≤ copyFuel → tree.footprint.Nodup → root_config ∉ tree.footprint →
          IsComposite store root_config →
            Traverse fuel copyFuel root_config location name parent tree store
  | tree, 0, _, _, _, _, _, _, _, _, enough, _, _, _, _ =>
      absurd enough (Nat.not_le_of_lt tree.size_pos)
  | .leaf this value, fuel + 1, copyFuel, root_config, location, name, parent, store, stored, _, _, _, _,
      apart, _ => by
      obtain ⟨schema_node, present⟩ := id stored
      refine ⟨store, .leaf this value, [], ?_, rfl, ⟨stored, rfl, fun _ member => .inl member⟩, ?_⟩
      · exact Store.acceptFrom_end (Store.nodesOf_leaf present rfl) fun _ impossible =>
          absurd impossible List.not_mem_nil
      · exact .of_frame (Frame.refl _ _) apart
  | .composite this children, fuel + 1, copyFuel, root_config, location, name, parent, store, stored,
      named, enough, enoughCopy, distinct, apart, holdsCopies => by
      obtain ⟨⟨schema_node, present⟩, sorted, below⟩ := stored
      obtain ⟨again, distinctBelow⟩ := List.nodup_cons.mp distinct
      obtain ⟨differs, apartBelow⟩ := not_or.mp (mt List.mem_cons.mpr apart)
      have outside : ∀ address ∈ footprints children, address ≠ this ∧ address ≠ root_config :=
        fun address member => ⟨fun same => again (same ▸ member), fun same => apartBelow (same ▸ member)⟩
      have at_children : AtChildren copyFuel root_config this location store
          ⟨name, parent, schema_node, .composite (Keyed.mapValues address children)⟩ [] none children :=
        ⟨below, (Nat.le_succ _).trans enoughCopy, present, named, rfl, .start sorted,
          distinctBelow, holdsCopies, Ne.symm differs, outside⟩
      obtain ⟨next, later, added, ran, read, replaced, carried⟩ :=
        acceptChildren_spec children at_children enough
      refine ⟨next, .composite this later, added, ran, rfl,
        ⟨⟨⟨schema_node, read⟩, ?_, replaced.stored⟩, congrArg Node.composite replaced.shape, ?_⟩, carried⟩
      · rw [keys_eq_of_shapes replaced.shape]
        exact sorted
      · intro address member
        rcases List.mem_cons.mp member with here | inside
        · exact .inl (here ▸ List.mem_cons_self)
        · exact (replaced.places address inside).imp_left (List.mem_cons_of_mem _)

theorem acceptChildren_spec : ∀ (children : List (Str × Placed)) {fuel copyFuel : Nat}
    {root_config this : Ref} {location : Location} {store : Store} {cell : Cell}
    {present : List (Str × Ref)} {passed : Option Str},
      AtChildren copyFuel root_config this location store cell present passed children →
        (footprints children).length < fuel →
      ∃ next later added,
        Store.acceptFrom id (visit copyFuel root_config) fuel this passed store = some next ∧
          next[this]? = some
            { cell with content := .composite (present ++ Keyed.mapValues address later) } ∧
          ReplacedChildren this store next children later ∧
          Carried root_config (this :: footprints children) store next added
            (rootward (Node.preorderChildren location (shapes children)))
  | _, 0, _, _, _, _, _, _, _, _, _, enough => absurd enough (Nat.not_lt_zero _)
  | [], fuel + 1, copyFuel, root_config, this, location, store, cell, present, passed, at_children, _ => by
      have nodes := Store.nodesOf_eq at_children.read at_children.holds
      rw [Keyed.mapValues, List.map_nil, List.append_nil] at nodes
      refine ⟨store, [], [], Store.acceptFrom_end nodes at_children.progress.done, ?_,
        ⟨trivial, rfl, fun _ impossible => absurd impossible List.not_mem_nil⟩, ?_⟩
      · rw [at_children.read, ← at_children.holds]
      · exact .of_frame (Frame.refl _ _) fun member =>
          at_children.differs (List.mem_singleton.mp member).symm
  | (name, child) :: rest, fuel + 1, copyFuel, root_config, this, location, store, cell, present, passed,
      at_children, enough => by
      have here := at_children.head
      have positive := child.size_pos
      rw [footprints, List.length_append] at enough
      have childEnough : child.size ≤ fuel := by
        rw [size]
        omega
      have distinctChild := (List.nodup_append.mp at_children.distinct).1
      have accepts : ∀ visited, Stored visited name (some this) child →
          IsComposite visited root_config → Traverse fuel copyFuel root_config (location ++ [name])
            name (some this) child visited := fun visited storedChild isComposite =>
        accept_spec child storedChild (nameOf_concat location name).symm childEnough here.enough
          distinctChild (fun inside => (here.outside root_config inside).2 rfl) isComposite
      obtain ⟨visited, next, held, added, ran, accepted, read, replaced, carried⟩ :=
        here.passesBy accepts
      obtain ⟨last, later, addedRest, ranRest, readRest, replacedRest, carriedRest⟩ :=
        acceptChildren_spec rest (at_children.tail read carried)
          (by rw [size] at positive; omega : (footprints rest).length < fuel)
      have nodes := Store.nodesOf_eq at_children.read at_children.holds
      have old : ∀ address ∈ root_config :: this :: footprints rest, address < store.length := by
        obtain ⟨_, _, readRoot, _⟩ := at_children.composite
        exact List.forall_mem_cons.mpr ⟨lt_length_of_read readRoot, List.forall_mem_cons.mpr
          ⟨lt_length_of_read at_children.read, at_children.stored.2.lt_length rest⟩⟩
      have heldApart : ∀ address ∈ held.footprint,
          address ∉ root_config :: this :: footprints rest := by
        intro address member touched
        rcases replaced.places address member with inChild | isNew
        · rcases List.mem_cons.mp touched with at_root | touched
          · exact (here.outside address inChild).2 at_root
          · rcases List.mem_cons.mp touched with at_this | inRest
            · exact (here.outside address inChild).1 at_this
            · exact (List.nodup_append.mp at_children.distinct).2.2 address inChild address inRest rfl
        · exact Nat.not_lt_of_le isNew (old address touched)
      refine ⟨last, (name, held) :: later, added ++ addedRest, ?_, ?_, ⟨⟨?_, replacedRest.stored⟩, ?_, ?_⟩,
        ?_⟩
      · rw [Store.acceptFrom_next nodes at_children.progress ran accepted]
        exact ranRest
      · rw [readRest, List.append_assoc]
        rfl
      · exact replaced.stored.kept carriedRest.frame held heldApart
      · rw [shapes, shapes, replaced.shape, replacedRest.shape]
      · intro address member
        rcases List.mem_append.mp member with inHeld | inLater
        · exact (replaced.places address inHeld).imp_left (List.mem_append_left _)
        · exact (replacedRest.places address inLater).imp (List.mem_append_right _)
            carried.frame.grows.trans
      · rw [shapes, Node.preorderChildren, rootward_append]
        refine (carried.mono fun address member => ?_).trans carriedRest old fun address member => ?_
        · rcases List.mem_cons.mp member with at_this | inside
          · exact at_this ▸ List.mem_cons_self
          · exact List.mem_cons_of_mem _ (List.mem_append_left _ inside)
        · rcases List.mem_cons.mp member with at_this | inside
          · exact at_this ▸ List.mem_cons_self
          · exact List.mem_cons_of_mem _ (List.mem_append_right _ inside)

end

end Traversed

end FlexConfig
