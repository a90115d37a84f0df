import FlexConfig.Foundation.SortedMap
import FlexConfig.Ordering.Precedence
import Mathlib.Data.Char

/-! # What the order of an update promises

The commands of an update are a map from paths to the paths they depend on. Where no
path depends on itself all of them are listed once (`run_update_op_permutes`), and in
every list a path precedes those below it (`ancestor_listed_first`): it is put before
the first longer path that contains it, and whatever contains that one contains it too.
The dependencies are met only where no path that contains a dependent moves it ahead
(`respects_dependencies_iff`).
-/

namespace FlexConfig

/-- The paths of an update with those each depends on. -/
abbrev Commands := SortedMap Str (List Str)

/-- A path that goes on behind another one. -/
def IsBelow (ancestor descendant : Str) : Prop := (ancestor ++ XPath.SEPARATOR) <+: descendant

instance (ancestor descendant : Str) : Decidable (IsBelow ancestor descendant) :=
  inferInstanceAs (Decidable (_ <+: _))

theorem isWithin_of_isBelow {ancestor descendant : Str} (below : IsBelow ancestor descendant) :
    isWithin ancestor descendant = true := by
  obtain ⟨rest, rfl⟩ := below
  rw [isWithin_iff]
  refine ⟨⟨[], XPath.SEPARATOR ++ rest, by simp⟩, ?_⟩
  have separator : XPath.SEPARATOR.length = 1 := rfl
  simp only [List.length_append, separator]
  omega

section Merge

/-- No name comes behind a longer one that it is part of. -/
def ShorterFirst (ordered : List Str) : Prop :=
  ordered.Pairwise fun earlier later => isWithin later earlier = false

theorem ShorterFirst.put {ordered : List Str} (shorterFirst : ShorterFirst ordered) (name : Str) :
    ShorterFirst (putBeforeLonger name ordered) := by
  induction ordered with
  | nil => exact List.pairwise_singleton _ _
  | cons other rest ih =>
      obtain ⟨apart, restFirst⟩ := List.pairwise_cons.mp shorterFirst
      rw [putBeforeLonger_cons]
      by_cases within : isWithin name other = true
      · rw [if_pos within]
        refine List.pairwise_cons.mpr ⟨fun later member => ?_, shorterFirst⟩
        -- What is part of the new name is part of the one it is put before.
        rw [Bool.eq_false_iff]
        intro part
        have throughOther := isWithin_trans part within
        rcases List.mem_cons.mp member with same | inRest
        · rw [same] at throughOther
          exact not_isWithin_self other throughOther
        · rw [apart later inRest] at throughOther
          cases throughOther
      · rw [if_neg within]
        refine List.pairwise_cons.mpr ⟨fun later member => ?_, ih restFirst⟩
        rcases mem_putBeforeLonger.mp member with same | inRest
        · rw [same]
          exact Bool.eq_false_iff.mpr within
        · exact apart later inRest

theorem ShorterFirst.merge {ordered : List Str} (shorterFirst : ShorterFirst ordered)
    (resolved waiting : List Str) : ShorterFirst (mergeResolved resolved waiting ordered) := by
  induction resolved generalizing waiting ordered with
  | nil => exact shorterFirst
  | cons name rest ih =>
      unfold mergeResolved
      split
      · exact ih (shorterFirst.put name) _
      · exact ih shorterFirst _

/-- Of two listed names one of which is part of the other, that one comes first. -/
theorem ShorterFirst.sublist {ordered : List Str} (shorterFirst : ShorterFirst ordered)
    {shorter longer : Str} (inside : shorter ∈ ordered) (outside : longer ∈ ordered)
    (within : isWithin shorter longer = true) : [shorter, longer].Sublist ordered := by
  induction ordered with
  | nil => cases inside
  | cons first rest ih =>
      obtain ⟨apart, restFirst⟩ := List.pairwise_cons.mp shorterFirst
      rcases List.mem_cons.mp inside with rfl | insideLater
      · rcases List.mem_cons.mp outside with same | outsideLater
        · rw [same] at within
          exact absurd within (not_isWithin_self _)
        · exact (List.singleton_sublist.mpr outsideLater).cons_cons _
      · rcases List.mem_cons.mp outside with rfl | outsideLater
        · rw [apart shorter insideLater] at within
          cases within
        · exact (ih restFirst insideLater outsideLater).cons _

end Merge

/-- A list that is found puts no name behind a longer one that it is part of. -/
theorem shorterFirst_of_sorted {adj_list : Adjacency} {ordered : List Str}
    (sorted : run_update_op adj_list = .ok ordered) : ShorterFirst ordered := by
  obtain ⟨nodes, _, sorted⟩ := Procedure.except_bind_eq_ok.mp sorted
  obtain ⟨⟨resolved, unresolved⟩, _, finished⟩ := Procedure.except_bind_eq_ok.mp sorted
  cases finished
  have none : ShorterFirst [] := .nil
  exact none.merge _ _

/-- In a list that is found every path precedes the paths below it, and reversed it
follows them. -/
theorem ancestor_listed_first (cmds : Commands) {ordered : List Str}
    (sorted : run_update_op cmds.entries = .ok ordered) {ancestor descendant : Str}
    (upper : ancestor ∈ Keyed.keys cmds.entries) (lower : descendant ∈ Keyed.keys cmds.entries)
    (below : IsBelow ancestor descendant) :
    [ancestor, descendant].Sublist ordered ∧ [descendant, ancestor].Sublist ordered.reverse := by
  have listed := (run_update_op_spec sorted).2
  have first := (shorterFirst_of_sorted sorted).sublist ((listed _).mpr upper)
    ((listed _).mpr lower) (isWithin_of_isBelow below)
  exact ⟨first, first.reverse⟩

/-- Without a cycle every path of the map is listed, and once. -/
theorem run_update_op_permutes (cmds : Commands) (acyclic : ¬ Cyclic cmds.entries) :
    ∃ ordered, run_update_op cmds.entries = .ok ordered ∧
      ordered.Perm (Keyed.keys cmds.entries) := by
  obtain ⟨ordered, sorted⟩ := run_update_op_iff_acyclic.mpr acyclic
  obtain ⟨unique, listed⟩ := run_update_op_spec sorted
  have distinct : (Keyed.keys cmds.entries).Nodup := cmds.sorted.imp fun lt => lt.ne
  exact ⟨ordered, sorted, (List.perm_ext_iff_of_nodup unique distinct).mpr listed⟩

section Resolve

/-- No node comes behind one that is below it. -/
def UpperFirst (nodes : List Str) : Prop :=
  nodes.Pairwise fun earlier later => ¬ IsBelow later earlier

theorem ShorterFirst.upperFirst {nodes : List Str} (shorterFirst : ShorterFirst nodes) :
    UpperFirst nodes := by
  refine shorterFirst.imp fun apart below => ?_
  rw [isWithin_of_isBelow below] at apart
  cases apart

/-- The nodes of a tree are listed from the upper ones to the lower ones, each once. -/
theorem resolve_upperFirst {env : Env} {config : Node} {ordered : List Str}
    (resolved : NodeDependencyManager.resolve env config = .ok ordered) :
    ordered.Nodup ∧ UpperFirst ordered := by
  refine ⟨(resolve_spec resolved).1, ?_⟩
  obtain ⟨dependencies, _, resolved⟩ := Procedure.except_bind_eq_ok.mp resolved
  split at resolved
  · next sorted =>
      cases resolved
      exact (shorterFirst_of_sorted sorted).upperFirst
  · cases resolved
    exact .nil
  · cases resolved

end Resolve

section Dependencies

/-- A path is to be updated before another one, which depends on it or is below it. -/
def ToComeFirst (cmds : Commands) (first second : Str) : Prop :=
  DependsOn cmds.entries second first ∨
    first ∈ Keyed.keys cmds.entries ∧ second ∈ Keyed.keys cmds.entries ∧ IsBelow first second

/-- The dependencies can be met together with updating every path before those below it. -/
def Consistent (cmds : Commands) : Prop :=
  ∀ path, ¬ Relation.TransGen (ToComeFirst cmds) path path

theorem Consistent.acyclic {cmds : Commands} (consistent : Consistent cmds) :
    ¬ Cyclic cmds.entries := by
  intro ⟨name, cycle⟩
  have reversed : Relation.TransGen (ToComeFirst cmds) name name := by
    rw [← Relation.transGen_swap]
    exact Relation.TransGen.mono (fun _ _ depends => .inl depends) name name cycle
  exact consistent name reversed

/-- Where all can be met, a list is found that has every path of the map behind those it
depends on. -/
def RespectsDependencies (cmds : Commands) : Prop :=
  Consistent cmds → ∃ ordered, run_update_op cmds.entries = .ok ordered ∧
    ∀ key ∈ Keyed.keys cmds.entries, ∀ dep ∈ Keyed.keys cmds.entries,
      DependsOn cmds.entries key dep → [dep, key].Sublist ordered

/-- Of two keys one precedes the other where the first resolved key that contains one of
them puts it ahead. -/
theorem sublist_sorted_iff {adj_list : Adjacency} (acyclic : ¬ Cyclic adj_list)
    {ordered : List Str} (sorted : run_update_op adj_list = .ok ordered) {ahead behind : Str}
    (aheadKey : ahead ∈ Keyed.keys adj_list) (behindKey : behind ∈ Keyed.keys adj_list) :
    [ahead, behind].Sublist ordered ↔ leads ahead behind (resolvedKeys adj_list) = true := by
  obtain ⟨unique, listed⟩ := run_update_op_spec sorted
  cases (run_update_op_of_acyclic acyclic).symm.trans sorted
  have same := mergeAll_perm (resolvedKeys adj_list)
  exact sublist_mergeAll_iff _ (same.nodup_iff.mp unique)
    (same.mem_iff.mp ((listed ahead).mpr aheadKey)) (same.mem_iff.mp ((listed behind).mpr behindKey))

/-- The dependencies are respected exactly where, among the keys in the order of their
resolution, the first one that contains a dependent or what it depends on puts the latter
ahead. -/
theorem respects_dependencies_iff (cmds : Commands) :
    RespectsDependencies cmds ↔
      (Consistent cmds → ∀ key ∈ Keyed.keys cmds.entries, ∀ dep ∈ Keyed.keys cmds.entries,
        DependsOn cmds.entries key dep → leads dep key (resolvedKeys cmds.entries) = true) := by
  refine forall_congr' fun consistent => ⟨fun ⟨ordered, sorted, respects⟩ => ?_, fun placed => ?_⟩
  · intro key keyed dep depKeyed depends
    exact (sublist_sorted_iff consistent.acyclic sorted depKeyed keyed).mp
      (respects key keyed dep depKeyed depends)
  · obtain ⟨ordered, sorted⟩ := run_update_op_iff_acyclic.mpr consistent.acyclic
    refine ⟨ordered, sorted, fun key keyed dep depKeyed depends => ?_⟩
    exact (sublist_sorted_iff consistent.acyclic sorted depKeyed keyed).mpr
      (placed key keyed dep depKeyed depends)

/-- A rank that dependencies and steps down respect shows that all can be met. -/
theorem consistent_of_rank {cmds : Commands} (rank : Str → Nat)
    (stated : ∀ key ∈ Keyed.keys cmds.entries,
      ∀ dep ∈ dependenciesOf cmds.entries key, rank dep < rank key)
    (downward : ∀ upper ∈ Keyed.keys cmds.entries, ∀ lower ∈ Keyed.keys cmds.entries,
      IsBelow upper lower → rank upper < rank lower) : Consistent cmds := by
  have step : ∀ {first second}, ToComeFirst cmds first second → rank first < rank second := by
    intro first second before
    rcases before with depends | ⟨upper, lower, below⟩
    · exact stated second depends.mem_keys first depends
    · exact downward first upper second lower below
  have grows : ∀ {first second}, Relation.TransGen (ToComeFirst cmds) first second →
      rank first < rank second := by
    intro first second path
    induction path with
    | single before => exact step before
    | tail _ before ih => exact ih.trans (step before)
  exact fun path cycle => Nat.lt_irrefl _ (grows cycle)

end Dependencies

end FlexConfig

namespace FlexConfig.Sample

/-- A container that depends on a leaf beside it. -/
def dependentContainer : Commands where
  entries := [("/a".toList, []), ("/b".toList, ["/a".toList]), ("/b/x".toList, [])]
  sorted := by decide

/-- The order to be kept. -/
def dependentRank (path : Str) : Nat := if path = "/a".toList then 0 else path.length

/-- The container is put before its leaf, which has been merged already, and so before
the leaf it depends on. -/
theorem dependent_moved_ahead : ¬ ∀ cmds, RespectsDependencies cmds := by
  intro respects
  have consistent : Consistent dependentContainer :=
    consistent_of_rank dependentRank (by decide +kernel) (by decide +kernel)
  obtain ⟨ordered, sorted, placed⟩ := respects dependentContainer consistent
  have found : run_update_op dependentContainer.entries =
      .ok ["/b".toList, "/b/x".toList, "/a".toList] := by
    decide +kernel
  cases found.symm.trans sorted
  have depends : "/a".toList ∈ dependenciesOf dependentContainer.entries "/b".toList := by
    decide +kernel
  have placedAhead := placed "/b".toList (by decide) "/a".toList (by decide) depends
  exact absurd placedAhead (by decide)

/-- A container, its leaf, and a leaf that depends on both and on a path that is no key. -/
def settledPaths : Commands where
  entries := [("/b".toList, []), ("/b/x".toList, []),
    ("/c".toList, ["/b".toList, "/b/x".toList, "/d".toList])]
  sorted := by decide

theorem settled_acyclic : ¬ Cyclic settledPaths.entries := by
  have found : run_update_op settledPaths.entries =
      .ok ["/b".toList, "/b/x".toList, "/c".toList] := by
    decide +kernel
  exact run_update_op_iff_acyclic.mp ⟨_, found⟩

theorem settled_permuted :
    ∃ ordered, run_update_op settledPaths.entries = .ok ordered ∧
      ordered.Perm (Keyed.keys settledPaths.entries) :=
  run_update_op_permutes settledPaths settled_acyclic

theorem container_listed_first :
    ["/b".toList, "/b/x".toList].Sublist ["/b".toList, "/b/x".toList, "/c".toList] ∧
      ["/b/x".toList, "/b".toList].Sublist ["/b".toList, "/b/x".toList, "/c".toList].reverse :=
  ancestor_listed_first settledPaths (by decide +kernel) (by decide) (by decide) (by decide)

end FlexConfig.Sample
