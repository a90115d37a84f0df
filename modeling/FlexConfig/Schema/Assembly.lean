import FlexConfig.Json.Merge
import FlexConfig.Schema.Lookup

/-! # Assembling the schema

The schema is put together from the files of a directory, in the order in which they are listed:
of the difference between what there is and the next file only the additions are applied. Where
the files are compatible the result is their deep union in any order.
-/

namespace FlexConfig

open Procedure

/-- A JSON document as the library keeps it, with the members of objects in order. -/
abbrev Document := { json : Json // json.Sorted }

namespace JsonSchema

/-- The operations of a patch that add something. -/
def addOperations (patch : Json) : Json :=
  .array (patch.values.filter fun diff_item =>
    diff_item.find JsonDiffField.OPERATION = some (.string JsonDiffOperation.ADD))

/-- One step of the loop: add what a file has and the schema has not. -/
def addSubschema (jschema jsubschema : Json) : Attempt Json :=
  jschema.patch (addOperations (jschema.diff jsubschema))

/-- The loop over the files of the directory. -/
def addSubschemas (jschema : Json) (jsubschemas : List Json) : Attempt Json :=
  jsubschemas.foldlM addSubschema jschema

/-- `JsonSchema::load`, from the documents in the files. -/
def load (jschema : Json) (jsubschemas : List Json) : Attempt Json := do
  let jschema ← addSubschemas jschema jsubschemas
  if jschema = .null then .error .rejected else .ok jschema

end JsonSchema

/-- A document is the deep union of others: at every path it has an object where one of them has
an object, a value where one of them has this value, and nothing else. -/
def IsDeepUnion (documents : List Document) (union : Document) : Prop :=
  Overlay.IsUnion (documents.map fun document => document.1.shapeAt) union.1.shapeAt

/-- Documents have one deep union. -/
theorem IsDeepUnion.unique {documents : List Document} {first second : Document}
    (one : IsDeepUnion documents first) (other : IsDeepUnion documents second) :
    first = second :=
  Subtype.ext (Json.eq_of_shapeAt first.2 second.2 (congrFun (Overlay.IsUnion.unique one other)))

theorem isDeepUnion_singleton (document : Document) : IsDeepUnion [document] document :=
  Overlay.isUnion_singleton _

theorem IsDeepUnion.perm {documents others : List Document} {union : Document}
    (isUnion : IsDeepUnion documents union) (same : others.Perm documents) :
    IsDeepUnion others union :=
  Overlay.IsUnion.perm isUnion (same.map _)

namespace JsonSchema

section Step

open Json

theorem find_op_toJson (item : DiffItem) :
    item.toJson.find JsonDiffField.OPERATION = some (.string item.op) := rfl

/-- The values of an array are its elements. -/
theorem values_array (elements : List Json) : (Json.array elements).values = elements := by
  unfold Json.values Json.items
  rw [List.map_map]
  exact (List.map_congr_left fun _ _ => rfl).trans (List.zipIdx_map_fst 0 elements)

/-- The operations that are kept of a difference are its additions. -/
theorem addOperations_diff (first second : Json) :
    addOperations (first.diff second) = .array ((additions first second).map DiffItem.toJson) := by
  unfold addOperations additions Json.diff
  rw [values_array, List.filter_map]
  refine congrArg Json.array (congrArg (List.map DiffItem.toJson) ?_)
  refine List.filter_congr fun item _ => ?_
  rw [Function.comp_apply, find_op_toJson]
  exact decide_eq_decide.mpr ⟨fun same => Json.string.inj (Option.some.inj same),
    fun same => by rw [same]⟩

/-- One step lays a compatible file under the schema. -/
theorem addSubschema_over {first second : Json} (firstSorted : first.Sorted)
    (secondSorted : second.Sorted) (compatible : Compatible first second) :
    ∃ after, addSubschema first second = .ok after ∧ after.Sorted ∧
      after.shapeAt = Overlay.overlaid first.shapeAt second.shapeAt := by
  obtain ⟨after, applied, sorted, result⟩ := applyItems_over firstSorted secondSorted compatible
  refine ⟨after, ?_, sorted, result⟩
  have each := addition_of_mem_additions firstSorted secondSorted compatible
  unfold addSubschema Json.patch
  rw [addOperations_diff]
  exact except_bind_eq_ok.mpr ⟨additions first second,
    mapM_ofJson_toJson fun item kept => (each item kept).plain, applied⟩

end Step

section Fold

/-- The loop lays compatible files under the union of what was read before. -/
theorem addSubschemas_union {current : Document} {before order : List Document}
    (isUnion : IsDeepUnion before current)
    (compatible : ∀ first ∈ before ++ order, ∀ second ∈ order,
      Json.Compatible first.1 second.1) :
    ∃ union : Document, addSubschemas current.1 (order.map Subtype.val) = .ok union.1 ∧
      IsDeepUnion (before ++ order) union := by
  induction order generalizing current before with
  | nil =>
      refine ⟨current, rfl, ?_⟩
      rw [List.append_nil]
      exact isUnion
  | cons document rest ih =>
      have agrees : Overlay.Agree current.1.shapeAt document.1.shapeAt := by
        refine Overlay.IsUnion.agree isUnion fun map member => ?_
        obtain ⟨earlier, listed, same⟩ := List.mem_map.mp member
        rw [← same]
        exact Json.compatible_iff.mp (compatible earlier (List.mem_append_left _ listed) document
          List.mem_cons_self)
      obtain ⟨after, added, sorted, result⟩ :=
        addSubschema_over current.2 document.2 (Json.compatible_iff.mpr agrees)
      have next : IsDeepUnion (before ++ [document]) ⟨after, sorted⟩ := by
        unfold IsDeepUnion
        rw [result]
        refine (Overlay.IsUnion.overlaid isUnion agrees).perm ?_
        rw [List.map_append]
        exact List.perm_append_singleton _ _
      obtain ⟨union, folded, whole⟩ := ih next fun first member second later =>
        compatible first (by rwa [List.append_assoc] at member) second
          (List.mem_cons_of_mem _ later)
      refine ⟨union, ?_, ?_⟩
      · change (addSubschema current.1 document.1 >>= fun next =>
          addSubschemas next (rest.map Subtype.val)) = _
        rw [added]
        exact folded
      · rw [List.append_assoc] at whole
        exact whole

/-- Compatible files make one schema in any order: the deep union of all of them. -/
theorem addSubschemas_eq_deepUnion (root : Document) (subschemas : List Document)
    (compatible : ∀ first ∈ root :: subschemas, ∀ second ∈ root :: subschemas,
      Json.Compatible first.1 second.1) :
    ∃ union, IsDeepUnion (root :: subschemas) union ∧
      (∀ other, IsDeepUnion (root :: subschemas) other → other = union) ∧
        ∀ order : List Document, order.Perm subschemas →
          addSubschemas root.1 (order.map Subtype.val) = .ok union.1 := by
  have folds : ∀ order : List Document, order.Perm subschemas →
      ∃ union : Document, addSubschemas root.1 (order.map Subtype.val) = .ok union.1 ∧
        IsDeepUnion (root :: subschemas) union := by
    intro order same
    have inside : ∀ document, document ∈ [root] ++ order → document ∈ root :: subschemas :=
      fun document member => (same.cons root).mem_iff.mp member
    obtain ⟨union, folded, whole⟩ := addSubschemas_union (isDeepUnion_singleton root)
      fun first member second listed => compatible first (inside first member) second
        (inside second (List.mem_append_right _ listed))
    exact ⟨union, folded, whole.perm (same.cons root).symm⟩
  obtain ⟨union, _, whole⟩ := folds subschemas (.refl _)
  refine ⟨union, whole, fun other another => another.unique whole, fun order same => ?_⟩
  obtain ⟨result, folded, isUnion⟩ := folds order same
  rw [folded, isUnion.unique whole]

end Fold

end JsonSchema

end FlexConfig

namespace FlexConfig.Sample

open JsonSchema

theorem container_sorted {members : List (String × Json)} (inner : (object members).Sorted) :
    (container members).Sorted :=
  ⟨List.pairwise_pair.mpr (by dsimp only; decide), inner, trivial, trivial⟩

theorem object_sorted {json : Json} (name : String) (inner : json.Sorted) :
    (object [(name, json)]).Sorted :=
  ⟨List.pairwise_singleton _ _, inner, trivial⟩

/-- The file of one kind of interface. -/
def interfaceFile (kind : String) : Document :=
  ⟨container [("interface", container [(kind, text "object")])],
    container_sorted (object_sorted _ (container_sorted (object_sorted kind trivial)))⟩

/-- A root without properties. -/
def emptyRoot : Document := ⟨container [], container_sorted ⟨.nil, trivial⟩⟩

/-- The files of two kinds of interfaces make one schema, whichever is read first. -/
theorem interfaces_assembled :
    ∃ union,
      IsDeepUnion [emptyRoot, interfaceFile "ethernet", interfaceFile "aggregate-ethernet"] union ∧
      (∀ other, IsDeepUnion
        [emptyRoot, interfaceFile "ethernet", interfaceFile "aggregate-ethernet"] other →
          other = union) ∧
      ∀ order : List Document,
        order.Perm [interfaceFile "ethernet", interfaceFile "aggregate-ethernet"] →
          addSubschemas emptyRoot.1 (order.map Subtype.val) = .ok union.1 := by
  refine addSubschemas_eq_deepUnion _ _ fun first member second other => ?_
  have agrees : ([emptyRoot, interfaceFile "ethernet", interfaceFile "aggregate-ethernet"].all
      fun first => [emptyRoot, interfaceFile "ethernet", interfaceFile "aggregate-ethernet"].all
        fun second => Json.agreesWith first.1 second.1) = true := by
    decide +kernel
  exact Json.compatible_of_agreesWith
    (List.all_eq_true.mp (List.all_eq_true.mp agrees first member) second other)

/-- Two orders of the files give the same schema. -/
example :
    addSubschemas emptyRoot.1
        [(interfaceFile "ethernet").1, (interfaceFile "aggregate-ethernet").1] =
      addSubschemas emptyRoot.1
        [(interfaceFile "aggregate-ethernet").1, (interfaceFile "ethernet").1] := by
  decide +kernel

end FlexConfig.Sample
