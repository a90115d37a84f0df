import FlexConfig.Manager.Reloading

/-! # Which nodes a patch updates

A patch is meant to check and post the nodes of the patched configuration at or below the paths of
its operations that do not remove. The routine takes the nodes of the tree that it has made of the
running one, in whose paths such a path occurs: what is loaded below the parents of these paths, and
what was there before.
-/

namespace FlexConfig

open Procedure

section Update

/-- The nodes a patch is meant to update in the tree of the patched document. -/
def ShouldUpdate (items : List DiffItem) (patched : Node) (xpath : Str) : Prop :=
  xpath ∈ xpathsOf patched ∧ ∃ path ∈ updatePaths items, AtOrBelow path xpath

instance (items : List DiffItem) (patched : Node) (xpath : Str) :
    Decidable (ShouldUpdate items patched xpath) := inferInstanceAs (Decidable (_ ∧ _))

/-- The updated nodes are those the patch is meant to update, each once. -/
def UpdateExact (items : List DiffItem) (patched : Node) (ordered : List Str) : Prop :=
  ordered.Nodup ∧ ∀ xpath, xpath ∈ ordered ↔ ShouldUpdate items patched xpath

instance (items : List DiffItem) (patched : Node) (ordered : List Str) :
    Decidable (UpdateExact items patched ordered) :=
  decidable_of_iff _ (and_congr_right fun _ => (exact_iff_bounded fun _ should => should.1).symm)

/-- When the list of updated nodes is the intended one: every node of the patched configuration at
or below an updated path is in the tree that is made of the running one, with a schema, and no other
such node of this tree has a path in which an updated path occurs. Where the tree cannot be sorted,
there is nothing to update. -/
def UpdateFits (env : Env) (items : List DiffItem) (worked patched : Node) : Prop :=
  (Sorts env worked →
    (∀ xpath, ShouldUpdate items patched xpath → Orderable env worked xpath) ∧
    ∀ xpath, Orderable env worked xpath → mentions (updatePaths items) xpath = true →
      ShouldUpdate items patched xpath) ∧
  (¬ Sorts env worked → ∀ xpath, ¬ ShouldUpdate items patched xpath)

variable {env : Env} {items : List DiffItem} {removal : Removal} {before : Draft}
  {json_config : Json} {edited patched : Node} {ordered : List Str} {saved : References}

theorem updateExact_iff_of_prepared
    (prepared : Prepared env items removal before json_config edited ordered saved) :
    UpdateExact items patched ordered ↔ UpdateFits env items edited patched := by
  obtain ⟨resolved, orders, listed, _, _⟩ := prepared_ordered prepared
  obtain ⟨unique, sorted, unsorted⟩ := resolve_spec orders
  have members (xpath : Str) : xpath ∈ ordered ↔
      xpath ∈ resolved ∧ mentions (updatePaths items) xpath = true := by
    rw [listed, List.mem_filter]
  have distinct : ordered.Nodup := by
    rw [listed]
    exact unique.filter _
  constructor
  · rintro ⟨_, exact'⟩
    refine ⟨fun sorts => ⟨fun xpath should => ?_, fun xpath orderable occurs => ?_⟩,
      fun unsortable xpath should => ?_⟩
    · exact (sorted sorts xpath).mp ((members xpath).mp ((exact' xpath).mpr should)).1
    · exact (exact' xpath).mp
        ((members xpath).mpr ⟨(sorted sorts xpath).mpr orderable, occurs⟩)
    · obtain ⟨inOrder, _⟩ := (members xpath).mp ((exact' xpath).mpr should)
      rw [unsorted unsortable] at inOrder
      cases inOrder
  · rintro ⟨sortable, unsortable⟩
    refine ⟨distinct, fun xpath => ?_⟩
    rw [members]
    by_cases sorts : Sorts env edited
    · obtain ⟨covered, apart⟩ := sortable sorts
      rw [sorted sorts]
      constructor
      · rintro ⟨orderable, occurs⟩
        exact apart xpath orderable occurs
      · intro should
        obtain ⟨_, path, member, below⟩ := id should
        exact ⟨covered xpath should, mentions_of_atOrBelow member below⟩
    · rw [unsorted sorts]
      constructor
      · rintro ⟨impossible, _⟩
        cases impossible
      · intro should
        exact absurd should (unsortable sorts xpath)

end Update

end FlexConfig

namespace FlexConfig.Sample

open Procedure

def replaceF : Json := .array [operation "replace" "/a/f" (some (text "w"))]

/-- The patch whose container is missed leads to the tree it starts from. -/
example : ∃ manager ∈ Manager.reached siblings siblingsConfig [],
    ∃ making ∈ Manager.Making.find siblings
        (.array [operation "add" "/b" (some (object [("g", text "w")]))]) manager,
      Leads siblings (.array [operation "add" "/b" (some (object [("g", text "w")]))])
        manager.runningJson making.root making.course.items making.course.json_config
          making.root := by
  decide +kernel

end FlexConfig.Sample
