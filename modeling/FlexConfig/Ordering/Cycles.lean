import FlexConfig.Ordering.Update

/-! # Which cycles are detected

The unfolding goes depth first, from the first key on and along the first dependency of
every name. Names that lead to no cycle are left behind it; from the first one that leads
to a cycle it never comes back. It ends only where it meets two names that depend on each
other (`detects_cycles_iff`), and a cycle of three names is unfolded until the stack is
exhausted.
-/

namespace FlexConfig

open Procedure

section Cycle

variable (adj_list : Adjacency)

/-- The first of some names from which a cycle can be reached. -/
def FirstToCycle (names : List Str) (name : Str) : Prop :=
  ∃ before behind, names = before ++ name :: behind ∧
    (∀ earlier ∈ before, ¬ LeadsToCycle adj_list earlier) ∧ LeadsToCycle adj_list name

/-- The unfolding of a name meets two names that depend on each other after some steps,
each to the first dependency that leads to a cycle. -/
inductive DetectedAfter : (steps : Nat) → (name : Str) → Prop where
  | back {name dep : Str} : FirstToCycle adj_list (dependenciesOf adj_list name) dep →
      DependsOn adj_list dep name → DetectedAfter 0 name
  | further {name dep : Str} {steps : Nat} :
      FirstToCycle adj_list (dependenciesOf adj_list name) dep → ¬ DependsOn adj_list dep name →
        DetectedAfter steps dep → DetectedAfter (steps + 1) name

variable {adj_list}

theorem FirstToCycle.unique {names : List Str} {name other : Str}
    (first : FirstToCycle adj_list names name) (second : FirstToCycle adj_list names other) :
    name = other := by
  obtain ⟨before, behind, rfl, safe, leads⟩ := first
  obtain ⟨before', behind', split, safe', leads'⟩ := second
  induction before generalizing before' with
  | nil =>
      cases before' with
      | nil =>
          cases split
          rfl
      | cons earlier rest =>
          cases split
          exact absurd leads (safe' _ List.mem_cons_self)
  | cons earlier rest ih =>
      obtain ⟨safeHere, safeRest⟩ := List.forall_mem_cons.mp safe
      cases before' with
      | nil =>
          cases split
          exact absurd leads' safeHere
      | cons earlier' rest' =>
          rw [List.cons_append, List.cons_append] at split
          injection split with same restSame
          exact ih safeRest rest' restSame (List.forall_mem_cons.mp safe').2

/-- The steps to the detection are determined by the name. -/
theorem DetectedAfter.unique {steps others : Nat} {name : Str}
    (detected : DetectedAfter adj_list steps name) (again : DetectedAfter adj_list others name) :
    steps = others := by
  induction detected generalizing others with
  | back first mutual_ =>
      cases again with
      | back => rfl
      | further second alone _ =>
          rw [first.unique second] at mutual_
          exact absurd mutual_ alone
  | further first alone _ ih =>
      cases again with
      | back second mutual_ =>
          rw [← first.unique second] at mutual_
          exact absurd mutual_ alone
      | further second _ later =>
          rw [← first.unique second] at later
          exact congrArg Nat.succ (ih later)

theorem leadsToCycle_of_mutual {name dep : Str} (depends : DependsOn adj_list name dep)
    (back : DependsOn adj_list dep name) : LeadsToCycle adj_list dep :=
  ⟨dep, .refl, (Relation.TransGen.single back).tail depends⟩

/-- Unfolding is refused only where the cycle is detected. -/
theorem detected_of_refused {fuel : Nat} {name message : Str}
    (refused : makeGraphNode adj_list fuel name = .error (.refused message)) :
    LeadsToCycle adj_list name ∧ ∃ steps, DetectedAfter adj_list steps name := by
  induction fuel generalizing name with
  | zero => cases refused
  | succ fuel ih =>
      rcases except_bind_eq_error.mp refused with halted | ⟨_, _, impossible⟩
      · obtain ⟨before, dep, behind, deps, earlier, here⟩ := mapM_eq_error_iff.mp halted
        have depends : DependsOn adj_list name dep := by
          unfold DependsOn
          rw [deps]
          exact List.mem_append_right _ List.mem_cons_self
        have safe : ∀ other ∈ before, ¬ LeadsToCycle adj_list other := by
          intro other member leads
          obtain ⟨node, made⟩ := earlier other member
          split at made
          · cases made
          · exact not_unfolded_of_leadsToCycle leads ⟨node, made⟩
        split at here
        · next back =>
            have leads := leadsToCycle_of_mutual depends back
            exact ⟨leadsToCycle_iff.mpr ⟨dep, depends, leads⟩, 0,
              .back ⟨before, behind, deps, safe, leads⟩ back⟩
        · next alone =>
            obtain ⟨leads, steps, detected⟩ := ih here
            exact ⟨leadsToCycle_iff.mpr ⟨dep, depends, leads⟩, steps + 1,
              .further ⟨before, behind, deps, safe, leads⟩ alone detected⟩
      · cases impossible

/-- Where the cycle is detected the unfolding is refused, with as much fuel as there are
keys outside the path to the name. -/
theorem refused_of_detected {steps fuel : Nat} {name : Str}
    (detected : DetectedAfter adj_list steps name) {path : List Str} (distinct : path.Nodup)
    (known : path ⊆ Keyed.keys adj_list)
    (leads : ∀ above ∈ path, Relation.TransGen (DependsOn adj_list) above name)
    (later : ∀ above ∈ path, ∃ more, steps < more ∧ DetectedAfter adj_list more above)
    (enough : adj_list.length < fuel + path.length) :
    ∃ message, makeGraphNode adj_list fuel name = .error (.refused message) := by
  induction fuel generalizing steps name path with
  | zero =>
      have bound := (distinct.subperm known).length_le
      rw [Keyed.keys, List.length_map] at bound
      omega
  | succ fuel ih =>
      have fresh : name ∉ path := by
        intro member
        obtain ⟨more, lt, again⟩ := later name member
        exact absurd (detected.unique again) lt.ne
      have longer : adj_list.length < fuel + (name :: path).length := by
        rw [List.length_cons]
        omega
      have distinctOn := List.nodup_cons.mpr ⟨fresh, distinct⟩
      have leadsOn : ∀ dep, DependsOn adj_list name dep →
          ∀ above ∈ name :: path, Relation.TransGen (DependsOn adj_list) above dep := by
        intro dep depends
        refine List.forall_mem_cons.mpr ⟨.single depends, fun above member => ?_⟩
        exact (leads above member).tail depends
      -- Either way the dependency fails and those before it are unfolded.
      have fails : ∀ {dep message}, FirstToCycle adj_list (dependenciesOf adj_list name) dep →
          (if name ∈ (Keyed.find dep adj_list).getD [] then
            .error (.refused ("Detected cyclic dependency: ".toList ++ dep ++ " -> ".toList ++
              name))
          else makeGraphNode adj_list fuel dep) = .error (.refused message) →
          ∃ message, makeGraphNode adj_list (fuel + 1) name = .error (.refused message) := by
        intro dep message first failed
        obtain ⟨before, behind, deps, safe, _⟩ := first
        refine ⟨message, except_bind_eq_error.mpr (.inl (mapM_eq_error_iff.mpr
          ⟨before, dep, behind, deps, fun other member => ?_, failed⟩))⟩
        have depends : DependsOn adj_list name other := by
          unfold DependsOn
          rw [show (Keyed.find name adj_list).getD [] = _ from deps]
          exact List.mem_append_left _ member
        have alone : ¬ DependsOn adj_list other name :=
          fun back => safe other member (leadsToCycle_of_mutual depends back)
        obtain ⟨node, made⟩ := unfolded_of_safe (safe other member) distinctOn
          (List.cons_subset.mpr ⟨depends.mem_keys, known⟩) (leadsOn other depends) longer
        exact ⟨node, (if_neg alone).trans made⟩
      cases detected with
      | back first mutual_ => exact fails first (if_pos mutual_)
      | @further _ dep steps first alone rest =>
          have depends : DependsOn adj_list name dep := by
            obtain ⟨before, behind, deps, _⟩ := first
            unfold DependsOn
            rw [show (Keyed.find name adj_list).getD [] = _ from deps]
            exact List.mem_append_right _ List.mem_cons_self
          have laterOn : ∀ above ∈ name :: path,
              ∃ more, steps < more ∧ DetectedAfter adj_list more above := by
            refine List.forall_mem_cons.mpr
              ⟨⟨steps + 1, Nat.lt_succ_self _, .further first alone rest⟩, ?_⟩
            intro above member
            obtain ⟨more, lt, again⟩ := later above member
            exact ⟨more, by omega, again⟩
          obtain ⟨message, refused⟩ := ih rest distinctOn
            (List.cons_subset.mpr ⟨depends.mem_keys, known⟩) (leadsOn dep depends) laterOn longer
          exact fails first ((if_neg alone).trans refused)

end Cycle

/-- A cycle among the paths is answered with an error; both texts of errors speak of one. -/
def DetectsCycles (cmds : Commands) : Prop :=
  Cyclic cmds.entries → ∃ message, run_update_op cmds.entries = .error (.refused message)

/-- Cycles are detected exactly where the unfolding, from the first key that leads to a
cycle and along the first dependencies that do, meets two paths that depend on each
other. -/
theorem detects_cycles_iff (cmds : Commands) :
    DetectsCycles cmds ↔
      (Cyclic cmds.entries →
        ∃ key, FirstToCycle cmds.entries (Keyed.keys cmds.entries) key ∧
          ∃ steps, DetectedAfter cmds.entries steps key) := by
  refine forall_congr' fun cyclic => ⟨fun ⟨message, refused⟩ => ?_, fun ⟨key, first, detected⟩ => ?_⟩
  · rcases except_bind_eq_error.mp refused with halted | ⟨nodes, made, _⟩
    · obtain ⟨before, key, behind, keys, earlier, here⟩ := mapM_eq_error_iff.mp halted
      obtain ⟨leads, detected⟩ := detected_of_refused here
      refine ⟨key, ⟨before, behind, keys, fun other member reaches => ?_, leads⟩, detected⟩
      exact not_unfolded_of_leadsToCycle reaches (earlier other member)
    · obtain ⟨name, cycle⟩ := cyclic
      obtain ⟨dep, depends, _⟩ := Relation.TransGen.head'_iff.mp cycle
      have unfolded := exists_mapM_eq_ok_iff.mp ⟨nodes, made⟩ name depends.mem_keys
      exact absurd unfolded (not_unfolded_of_leadsToCycle ⟨name, .refl, cycle⟩)
  · obtain ⟨before, behind, keys, safe, _⟩ := first
    obtain ⟨steps, detected⟩ := detected
    have none : ∀ above ∈ ([] : List Str), False := fun _ impossible => by cases impossible
    have fuel := Nat.lt_succ_self cmds.entries.length
    obtain ⟨message, refused⟩ := refused_of_detected detected List.nodup_nil (List.nil_subset _)
      (fun above member => (none above member).elim) (fun above member => (none above member).elim)
      fuel
    refine ⟨message, except_bind_eq_error.mpr (.inl (mapM_eq_error_iff.mpr
      ⟨before, key, behind, keys, fun other member => ?_, refused⟩))⟩
    exact unfolded_of_safe (safe other member) List.nodup_nil (List.nil_subset _)
      (fun above member => (none above member).elim) fuel

end FlexConfig

namespace FlexConfig.Sample

/-- Three paths that depend on each other in turn. -/
def threeInTurn : Commands where
  entries := [("/a".toList, ["/b".toList]), ("/b".toList, ["/c".toList]),
    ("/c".toList, ["/a".toList])]
  sorted := by decide

/-- A cycle of three paths exhausts the stack. -/
theorem three_in_turn_undetected : ¬ ∀ cmds, DetectsCycles cmds := by
  intro detects
  have exhausted : run_update_op threeInTurn.entries = .error .overflow := by decide +kernel
  have cyclic : Cyclic threeInTurn.entries := by
    rw [← not_not (a := Cyclic threeInTurn.entries), ← run_update_op_iff_acyclic]
    rintro ⟨ordered, sorted⟩
    cases exhausted.symm.trans sorted
  obtain ⟨message, refused⟩ := detects threeInTurn cyclic
  cases exhausted.symm.trans refused

end FlexConfig.Sample
