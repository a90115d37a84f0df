import FlexConfig.Tree.Store

/-! # What the operations on stored nodes do

`MakeCopy` makes a tree of new nodes and leaves all others alone, and the copy is of the shape of
the tree that was copied.
-/

namespace FlexConfig

open Heap Placed

namespace Store

section Operations

variable {store : Store} {this node : Ref} {cell : Cell} {node_by_name : List (Str × Ref)}

theorem makeLike_eq (cell : Cell) (content : Content) (parent : Option Ref) (store : Store) :
    makeLike cell content parent store =
      store ++ [⟨cell.name, parent.or cell.parent, cell.schema_node, content⟩] := by
  rw [makeLike, SetParent, modify_length, SetSchemaNode, modify_length]

theorem read_setNodes (read : store[this]? = some cell) :
    (setNodes this node_by_name store)[this]? =
      some { cell with content := .composite node_by_name } := by
  rw [setNodes, List.getElem?_modify_eq, read]
  rfl

theorem frame_setNodes : Frame [this] store (setNodes this node_by_name store) :=
  Frame.modify this _ store

/-- A name behind all others is put at the end. -/
theorem emplace_eq {name : Str} (read : store[this]? = some cell)
    (holds : cell.content = .composite node_by_name)
    (less : ∀ other ∈ Keyed.keys node_by_name, other < name) :
    emplace this name node store = some (setNodes this (node_by_name ++ [(name, node)]) store) := by
  have free : Keyed.find name node_by_name = none :=
    Keyed.find_eq_none_iff.mpr fun taken => lt_irrefl name (less name taken)
  have atEnd := @Keyed.insert_append _ _ _ _ _ _ _ node node_by_name [] less
  rw [List.append_nil, Keyed.insert] at atEnd
  simp only [emplace, read, holds, free, atEnd, Option.bind_eq_bind, Option.bind_some]

theorem add_eq {child : Cell} (read : store[this]? = some cell) (readChild : store[node]? = some child)
    (holds : cell.content = .composite node_by_name) : Add this node store = some (SetParent node
      (some this) (setNodes this (Keyed.insert child.name node node_by_name) store)) := by
  simp only [Add, read, readChild, holds, Option.bind_eq_bind, Option.bind_some]

theorem nodesOf_eq (read : store[this]? = some cell)
    (holds : cell.content = .composite node_by_name) : nodesOf this store = some node_by_name := by
  simp only [nodesOf, read, holds, Option.bind_eq_bind, Option.bind_some]

theorem nodesOf_leaf {value : Str} (read : store[this]? = some cell)
    (holds : cell.content = .leaf value) : nodesOf this store = some [] := by
  simp only [nodesOf, read, holds, Option.bind_eq_bind, Option.bind_some]

end Operations

/-- A loop over children has passed some of them and has the others ahead, in name order. -/
structure Progress (present : List (Str × Ref)) (passed : Option Str) (names : List Str) :
    Prop where
  sorted : names.Pairwise (· < ·)
  less : ∀ name ∈ Keyed.keys present, ∀ other ∈ names, name < other
  done : ∀ name ∈ Keyed.keys present, behind passed name = false
  ahead : ∀ name ∈ names, behind passed name = true

namespace Progress

variable {present : List (Str × Ref)} {passed : Option Str} {name : Str} {names : List Str}

theorem start (sorted : names.Pairwise (· < ·)) : Progress [] none names where
  sorted := sorted
  less := fun _ impossible => absurd impossible List.not_mem_nil
  done := fun _ impossible => absurd impossible List.not_mem_nil
  ahead := fun _ _ => rfl

theorem next (progress : Progress present passed (name :: names)) (node : Ref) :
    Progress (present ++ [(name, node)]) (some name) names := by
  obtain ⟨least, sorted⟩ := List.pairwise_cons.mp progress.sorted
  have keys : ∀ other ∈ Keyed.keys (present ++ [(name, node)]),
      other ∈ Keyed.keys present ∨ other = name := by
    intro other member
    rw [Keyed.keys, List.map_append, List.mem_append] at member
    exact member.imp_right List.mem_singleton.mp
  refine ⟨sorted, fun other member later inRest => ?_, fun other member => decide_eq_false ?_,
    fun other member => decide_eq_true (least other member)⟩
  · rcases keys other member with before | here
    · exact progress.less other before later (List.mem_cons_of_mem _ inRest)
    · exact here ▸ least later inRest
  · rcases keys other member with before | here
    · exact lt_asymm (progress.less other before name List.mem_cons_self)
    · exact here ▸ lt_irrefl name

end Progress

section Loop

variable {τ : Type} {view : τ → Store} {visit : Ref → τ → Option (Bool × τ)} {fuel : Nat}
  {this : Ref} {passed : Option Str} {state visited below : τ}
  {node_by_name : List (Str × Ref)}

/-- The loop ends where all children were passed. -/
theorem acceptFrom_end (nodes : nodesOf this (view state) = some node_by_name)
    (done : ∀ name ∈ Keyed.keys node_by_name, behind passed name = false) :
    acceptFrom view visit (fuel + 1) this passed state = some state := by
  have nothing : (node_by_name.find? fun entry => behind passed entry.1) = none := by
    refine List.find?_eq_none.mpr fun entry member => ?_
    rw [done entry.1 (List.mem_map_of_mem member)]
    exact Bool.false_ne_true
  simp only [acceptFrom, nodes, nothing, Option.bind_eq_bind, Option.bind_some]

section Next

variable {present rest : List (Str × Ref)} {name : Str} {node : Ref} {names : List Str}

theorem find_next (node : Ref) (rest : List (Str × Ref))
    (progress : Progress present passed (name :: names)) :
    ((present ++ (name, node) :: rest).find? fun entry => behind passed entry.1) =
      some (name, node) := by
  have nothing : (present.find? fun entry => behind passed entry.1) = none := by
    refine List.find?_eq_none.mpr fun entry member => ?_
    rw [progress.done entry.1 (List.mem_map_of_mem member)]
    exact Bool.false_ne_true
  rw [List.find?_append, nothing, Option.none_or, List.find?_cons,
    progress.ahead name List.mem_cons_self]

variable (nodes : nodesOf this (view state) = some (present ++ (name, node) :: rest))
  (progress : Progress present passed (name :: names))

include nodes progress

/-- The next child is visited and traversed, and the loop goes on behind it. -/
theorem acceptFrom_next (accepts : visit node state = some (true, visited))
    (traversed : Accept view visit fuel node visited = some below) :
    acceptFrom view visit (fuel + 1) this passed state =
      acceptFrom view visit fuel this (some name) below := by
  have inside : acceptFrom view visit fuel node none visited = some below := traversed
  simp only [acceptFrom, nodes, find_next node rest progress, accepts, inside, Option.bind_eq_bind,
    Option.bind_some, ↓reduceIte]

/-- The loop ends at a child that is refused. -/
theorem acceptFrom_refused (refuses : visit node state = some (false, visited)) :
    acceptFrom view visit (fuel + 1) this passed state = some visited := by
  simp only [acceptFrom, nodes, find_next node rest progress, refuses, Option.bind_eq_bind,
    Option.bind_some, Bool.false_eq_true, ↓reduceIte]

end Next

end Loop

section Copy

/-- A copy of a child is put into a composite. -/
def copyInto (fuel : Nat) (this : Ref) (store : Store) (entry : Str × Ref) :
    Option Store := do
  let copied ← MakeCopy fuel entry.2 (some this) store
  emplace this entry.1 copied.1 copied.2

theorem makeCopy_leaf {fuel : Nat} {this : Ref} {parent : Option Ref} {store : Store}
    {cell : Cell} {value : Str} (read : store[this]? = some cell)
    (holds : cell.content = .leaf value) : MakeCopy (fuel + 1) this parent store =
      some (store.length, makeLike cell (.leaf value) parent store) := by
  simp only [MakeCopy, read, holds, Option.bind_eq_bind, Option.bind_some]

theorem makeCopy_composite {fuel : Nat} {this : Ref} {parent : Option Ref} {store : Store}
    {cell : Cell} {node_by_name : List (Str × Ref)} (read : store[this]? = some cell)
    (holds : cell.content = .composite node_by_name) : MakeCopy (fuel + 1) this parent store =
      (node_by_name.foldlM (copyInto fuel store.length)
        (makeLike cell (.composite []) parent store)).bind fun filled =>
          some (store.length, filled) := by
  simp only [MakeCopy, read, holds, Option.bind_eq_bind, Option.bind_some]
  rfl

/-- A tree was copied: the copy is made of new nodes, and nothing else has changed. -/
structure Copied (store next : Store) (name : Str) (parent : Option Ref)
    (tree copy : Placed) : Prop where
  frame : Frame [] store next
  stored : Stored next name parent copy
  shape : copy.shape = tree.shape
  fresh : ∀ address ∈ copy.footprint, store.length ≤ address

/-- Trees were copied into a composite: it has them besides what it had. -/
structure CopiedInto (this : Ref) (store next : Store) (cell : Cell)
    (present : List (Str × Ref)) (trees copies : List (Str × Placed)) : Prop where
  frame : Frame [this] store next
  read : next[this]? = some
    { cell with content := .composite (present ++ Keyed.mapValues Placed.address copies) }
  stored : StoredChildren next this copies
  shape : shapes copies = shapes trees
  fresh : ∀ address ∈ footprints copies, store.length ≤ address

mutual

theorem makeCopy_spec : ∀ (tree : Placed) {fuel : Nat} {store : Store} {name : Str}
    {parent above : Option Ref}, Stored store name parent tree → tree.size ≤ fuel →
      ∃ copy next, MakeCopy fuel tree.address above store = some (copy.address, next) ∧
        Copied store next name (above.or parent) tree copy
  | tree, 0, _, _, _, _, _, enough => absurd enough (Nat.not_le_of_lt tree.size_pos)
  | .leaf address value, fuel + 1, store, name, parent, above, stored, _ => by
      obtain ⟨schema_node, present⟩ := stored
      refine ⟨.leaf store.length value, _, makeCopy_leaf present rfl, ?_⟩
      rw [makeLike_eq]
      refine ⟨Frame.append _ _, ⟨schema_node, List.getElem?_concat_length⟩, rfl, ?_⟩
      intro other member
      rw [footprint, List.mem_singleton] at member
      exact member.ge
  | .composite address children, fuel + 1, store, name, parent, above, stored, enough => by
      obtain ⟨⟨schema_node, present⟩, sorted, below⟩ := stored
      let made : Store := store ++ [⟨name, above.or parent, schema_node, .composite []⟩]
      have madeFrame : Frame [] store made := Frame.append _ _
      have below' : StoredChildren made address children :=
        below.kept madeFrame children fun _ _ => List.not_mem_nil
      have read : made[store.length]? = some ⟨name, above.or parent, schema_node, .composite []⟩ :=
        List.getElem?_concat_length
      have other : ∀ inside ∈ footprints children, inside ≠ store.length := fun inside member =>
        (below.lt_length children inside member).ne
      obtain ⟨copies, next, filled, into⟩ := copyChildren_spec children below'
        (Nat.le_of_succ_le_succ enough) read rfl (fun _ impossible => absurd impossible List.not_mem_nil)
        sorted other
      have ran : MakeCopy (fuel + 1) address above store = some (store.length, next) := by
        rw [makeCopy_composite present rfl, makeLike_eq]
        exact congrArg (Option.bind · _) filled
      have frame : Frame [] store next := by
        refine madeFrame.trans into.frame fun inside member old => ?_
        exact absurd (List.mem_singleton.mp member) old.ne
      refine ⟨.composite store.length copies, next, ran, frame,
        ⟨⟨schema_node, into.read⟩, ?_, into.stored⟩, congrArg Node.composite into.shape, ?_⟩
      · rw [keys_eq_of_shapes into.shape]
        exact sorted
      · intro inside member
        rcases List.mem_cons.mp member with here | later
        · exact here.ge
        · exact madeFrame.grows.trans (into.fresh inside later)

theorem copyChildren_spec : ∀ (children : List (Str × Placed)) {fuel : Nat} {store : Store}
    {this parent : Ref} {cell : Cell} {present : List (Str × Ref)},
      StoredChildren store parent children → (footprints children).length ≤ fuel →
        store[this]? = some cell → cell.content = .composite present →
          (∀ name ∈ Keyed.keys present, ∀ other ∈ Keyed.keys children, name < other) →
            (Keyed.keys children).Pairwise (· < ·) →
              (∀ address ∈ footprints children, address ≠ this) →
      ∃ copies next,
        (Keyed.mapValues Placed.address children).foldlM (copyInto fuel this) store = some next ∧
          CopiedInto this store next cell present children copies
  | [], fuel, store, this, parent, cell, present, _, _, read, holds, _, _, _ => by
      refine ⟨[], store, rfl, Frame.refl _ _, ?_, trivial, rfl, fun _ impossible => ?_⟩
      · rw [read, Keyed.mapValues, List.map_nil, List.append_nil, ← holds]
      · exact absurd impossible List.not_mem_nil
  | (name, child) :: rest, fuel, store, this, parent, cell, present, stored, enough, read, holds, less,
      sorted, apart => by
      obtain ⟨least, sortedRest⟩ := List.pairwise_cons.mp sorted
      rw [footprints, List.length_append] at enough
      obtain ⟨copy, grown, ran, copied⟩ := @makeCopy_spec child fuel store name (some parent)
        (some this) stored.1 (Nat.le_of_add_right_le enough)
      let links := present ++ [(name, copy.address)]
      let entered : Store := setNodes this links grown
      have readGrown : grown[this]? = some cell := copied.frame.read read List.not_mem_nil
      have emplaced : emplace this name copy.address grown = some entered :=
        emplace_eq readGrown holds fun other member => less other member name List.mem_cons_self
      have frameEntered : Frame [this] grown entered := frame_setNodes
      have frame : Frame [this] store entered :=
        (copied.frame.mono fun _ impossible => absurd impossible List.not_mem_nil).trans frameEntered
          fun _ member _ => member
      have old := lt_length_of_read read
      have copyApart : ∀ address ∈ copy.footprint, address ∉ [this] := fun address member here =>
        Nat.not_le_of_lt old (List.mem_singleton.mp here ▸ copied.fresh address member)
      have restStored : StoredChildren entered parent rest := by
        refine stored.2.kept frame rest fun address member here => ?_
        exact apart address (List.mem_append_right _ member) (List.mem_singleton.mp here)
      have lessRest : ∀ first ∈ Keyed.keys links, ∀ other ∈ Keyed.keys rest, first < other := by
        intro first member other inRest
        rw [Keyed.keys, List.map_append, List.mem_append] at member
        rcases member with before | here
        · exact less first before other (List.mem_cons_of_mem _ inRest)
        · exact List.mem_singleton.mp here ▸ least other inRest
      obtain ⟨copies, next, ranRest, into⟩ := copyChildren_spec rest restStored
        (Nat.le_of_add_left_le enough) (read_setNodes readGrown) rfl lessRest sortedRest
        fun address member => apart address (List.mem_append_right _ member)
      refine ⟨(name, copy) :: copies, next, ?_, frame.trans into.frame fun _ member _ => member, ?_,
        ⟨?_, into.stored⟩, ?_, ?_⟩
      · have first : copyInto fuel this store (name, child.address) = some entered := by
          rw [copyInto, ran]
          exact emplaced
        rw [Keyed.mapValues, List.map_cons, List.foldlM_cons, first]
        exact ranRest
      · rw [into.read, List.append_assoc]
        rfl
      · exact (copied.stored.kept frameEntered copy copyApart).kept into.frame copy copyApart
      · rw [shapes, shapes, copied.shape, into.shape]
      · intro address member
        rcases List.mem_append.mp member with here | later
        · exact copied.fresh address here
        · exact frame.grows.trans (into.fresh address later)

end

end Copy

end Store

end FlexConfig
