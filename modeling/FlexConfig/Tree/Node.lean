import FlexConfig.Json.Value

/-! # Configuration trees

A configuration tree is built of composites, which hold their children by name in
name order, and of leaves, which hold a string. A node is handled together with
its location, the names on the way down to it from the root; the parent of a node
and the names of its ancestors are read off that location.
-/

namespace FlexConfig

/-- A node without its name: the name is the key its parent holds it under. -/
inductive Node where
  | leaf (value : Str)
  | composite (children : List (Str × Node))

/-- The names from below the root down to a node. -/
abbrev Location := List Str

/-- A node together with where it is. -/
structure Located where
  location : Location
  node : Node

namespace Node

mutual

def decEq : (left right : Node) → Decidable (left = right)
  | .leaf a, .leaf b => decidable_of_iff (a = b) (by simp)
  | .composite a, .composite b => @decidable_of_iff _ (a = b) (by simp) (decEqChildren a b)
  | .leaf _, .composite _ | .composite _, .leaf _ => isFalse (by simp)

def decEqChildren : (left right : List (Str × Node)) → Decidable (left = right)
  | [], [] => isTrue rfl
  | [], _ :: _ => isFalse (by simp)
  | _ :: _, [] => isFalse (by simp)
  | (k, x) :: xs, (l, y) :: ys =>
    @decidable_of_iff _ (k = l ∧ x = y ∧ xs = ys) (by simp [and_assoc])
      (@instDecidableAnd _ _ inferInstance
        (@instDecidableAnd _ _ (decEq x y) (decEqChildren xs ys)))

end

instance : DecidableEq Node := decEq

deriving instance DecidableEq for Located

/-- A freshly made root or container. -/
def empty : Node := .composite []

def isLeaf : Node → Bool
  | .leaf _ => true
  | .composite _ => false

def children : Node → List (Str × Node)
  | .leaf _ => []
  | .composite entries => entries

/-- `Composite::FindNode`. -/
def findNode (node : Node) (name : Str) : Option Node := Keyed.find name node.children

/-- `Composite::Add`: the child replaces one of the same name. A leaf has no such
operation and is left alone. -/
def add (node : Node) (name : Str) (child : Node) : Node :=
  match node with
  | .leaf value => .leaf value
  | .composite entries => .composite (Keyed.insert name child entries)

/-- `Composite::Remove`, without its answer. -/
def remove (node : Node) (name : Str) : Node :=
  match node with
  | .leaf value => .leaf value
  | .composite entries => .composite (Keyed.erase name entries)

/-- The node at a location. -/
def get : Node → Location → Option Node
  | node, [] => some node
  | node, name :: rest => (node.findNode name).bind fun child => get child rest

/-- Rewrite the node at a location. -/
def modify (change : Node → Node) : Location → Node → Node
  | [], node => change node
  | name :: rest, node =>
    match node.findNode name with
    | none => node
    | some child => node.add name (modify change rest child)

/-- Remove the node at a location from its parent. -/
def removeAt (location : Location) (root : Node) : Node :=
  match location.getLast? with
  | none => root
  | some name => root.modify (fun parent => parent.remove name) location.dropLast

section Traversal

variable {σ : Type*}

mutual

/-- `Accept`: visit the nodes below a node depth first, children in name order.
A visitor that answers `false` ends the loop over the siblings of the node it was
shown, and nothing else. -/
def accept (visit : σ → Located → Bool × σ) : (location : Location) → Node → σ → σ
  | _, .leaf _, state => state
  | location, .composite entries, state => acceptChildren visit location entries state

def acceptChildren (visit : σ → Located → Bool × σ) :
    (location : Location) → List (Str × Node) → σ → σ
  | _, [], state => state
  | location, (name, child) :: rest, state =>
    match visit state ⟨location ++ [name], child⟩ with
    | (false, next) => next
    | (true, next) =>
      acceptChildren visit location rest (accept visit (location ++ [name]) child next)

end

mutual

/-- The nodes below a node in the order of a traversal that is never stopped. -/
def preorder : (location : Location) → Node → List Located
  | _, .leaf _ => []
  | location, .composite entries => preorderChildren location entries

def preorderChildren : (location : Location) → List (Str × Node) → List Located
  | _, [] => []
  | location, (name, child) :: rest =>
    ⟨location ++ [name], child⟩ :: preorder (location ++ [name]) child ++
      preorderChildren location rest

end

/-- The nodes of a tree other than its root. -/
def nodes (root : Node) : List Located := root.preorder []

mutual

/-- A visitor that never stops folds over the traversal order. -/
theorem accept_eq_foldl {visit : σ → Located → Bool × σ}
    (goesOn : ∀ state node, (visit state node).1 = true) :
    ∀ (location : Location) (node : Node) (state : σ),
      accept visit location node state =
        (preorder location node).foldl (fun acc visited => (visit acc visited).2) state
  | _, .leaf _, _ => by rw [accept, preorder, List.foldl_nil]
  | location, .composite entries, state => by
      rw [accept, preorder]
      exact acceptChildren_eq_foldl goesOn location entries state

theorem acceptChildren_eq_foldl {visit : σ → Located → Bool × σ}
    (goesOn : ∀ state node, (visit state node).1 = true) :
    ∀ (location : Location) (entries : List (Str × Node)) (state : σ),
      acceptChildren visit location entries state =
        (preorderChildren location entries).foldl (fun acc visited => (visit acc visited).2) state
  | _, [], _ => by rw [acceptChildren, preorderChildren, List.foldl_nil]
  | location, (name, child) :: rest, state => by
      have visited := goesOn state ⟨location ++ [name], child⟩
      rw [acceptChildren, preorderChildren, List.cons_append, List.foldl_cons, List.foldl_append]
      split
      · next stopped => rw [stopped] at visited; cases visited
      · next next went =>
          rw [accept_eq_foldl goesOn, acceptChildren_eq_foldl goesOn, went]

end

/-- Each child comes before what is below it. -/
theorem preorderChildren_eq_flatMap (location : Location) (entries : List (Str × Node)) :
    preorderChildren location entries = entries.flatMap fun entry =>
      ⟨location ++ [entry.1], entry.2⟩ :: preorder (location ++ [entry.1]) entry.2 := by
  induction entries with
  | nil => rfl
  | cons entry rest ih =>
      obtain ⟨name, child⟩ := entry
      rw [preorderChildren, ih, List.flatMap_cons]

theorem mem_preorderChildren {location : Location} {entries : List (Str × Node)}
    {entry : Str × Node} (child : entry ∈ entries) :
    (⟨location ++ [entry.1], entry.2⟩ : Located) ∈ preorderChildren location entries := by
  rw [preorderChildren_eq_flatMap]
  exact List.mem_flatMap.mpr ⟨entry, child, List.mem_cons_self⟩

/-- What is kept of the nodes below a node, where its children are kept. -/
theorem filter_preorderChildren {keep : Located → Bool} {location : Location}
    (children : ∀ name child, keep ⟨location ++ [name], child⟩ = true)
    (entries : List (Str × Node)) :
    (preorderChildren location entries).filter keep = entries.flatMap fun entry =>
      ⟨location ++ [entry.1], entry.2⟩ ::
        (preorder (location ++ [entry.1]) entry.2).filter keep := by
  rw [preorderChildren_eq_flatMap, List.filter_flatMap]
  refine List.flatMap_congr fun entry _ => ?_
  rw [List.filter_cons_of_pos (children entry.1 entry.2)]

/-- A node without children is the only one of which nothing is kept. -/
theorem filter_preorderChildren_eq_nil_iff {keep : Located → Bool} {location : Location}
    (children : ∀ name child, keep ⟨location ++ [name], child⟩ = true)
    {entries : List (Str × Node)} :
    (preorderChildren location entries).filter keep = [] ↔ entries = [] := by
  rw [filter_preorderChildren children]
  cases entries with
  | nil => exact ⟨fun _ => rfl, fun _ => rfl⟩
  | cons entry others => exact ⟨fun impossible => (nomatch impossible), nofun⟩

mutual

/-- The nodes below a node are at locations below its own. -/
theorem exists_below : ∀ (location : Location) (node : Node) {visited : Located},
    visited ∈ node.preorder location → ∃ name rest, visited.location = location ++ name :: rest
  | _, .leaf _, _, impossible => by cases impossible
  | location, .composite entries, _, member => by
      obtain ⟨entry, rest, _, below⟩ := exists_below_children location entries member
      exact ⟨entry.1, rest, below⟩

theorem exists_below_children : ∀ (location : Location) (entries : List (Str × Node))
    {visited : Located}, visited ∈ preorderChildren location entries →
      ∃ entry rest, entry ∈ entries ∧ visited.location = location ++ entry.1 :: rest
  | _, [], _, impossible => by cases impossible
  | location, (name, child) :: others, visited, member => by
      rw [preorderChildren, List.cons_append, List.mem_cons, List.mem_append] at member
      rcases member with rfl | here | there
      · exact ⟨(name, child), [], List.mem_cons_self, rfl⟩
      · obtain ⟨next, rest, below⟩ := exists_below (location ++ [name]) child here
        refine ⟨(name, child), next :: rest, List.mem_cons_self, ?_⟩
        rw [below, List.append_assoc]
        rfl
      · obtain ⟨entry, rest, inside, below⟩ := exists_below_children location others there
        exact ⟨entry, rest, List.mem_cons_of_mem _ inside, below⟩

end

end Traversal

end Node

end FlexConfig
