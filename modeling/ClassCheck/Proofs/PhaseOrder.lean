import ClassCheck.Proofs.RefusedLinks

/-!
# Diagnostics in the order of the phases

Classes are registered, linked, given their members, searched for the entry point and typed, in this
order, and each phase only adds to the diagnostics of those before it. Many kinds are reported by
one phase alone, so that their order among the diagnostics is fixed.
-/

namespace ClassCheck

/-- The phase that reports a kind, where no other phase does: linking, members, the entry point and
typing are the phases 1 to 4. -/
def Diagnostic.Kind.phase? : Kind → Option Nat
  | illegalInheritance => some 1
  | illegalOverload => some 2
  | missingMain | malformedMain => some 3
  | undefinedSymbol | typeMismatch | invalidOperator | invalidCast | invalidBreak
  | illegalStatement => some 4
  | duplicateDefinition | undefinedType | reservedIdentifier | unassigned _ => none

namespace Diagnostic

def InPhase (i : Nat) (ds : List Diagnostic) : Prop :=
  ∀ d ∈ ds, ∀ j ∈ d.kind.phase?, j = i

/-- No diagnostic of a later phase comes before one of an earlier phase, and phase `i` is the last
to have reported. -/
structure PhasedUpTo (i : Nat) (ds : List Diagnostic) : Prop where
  inOrder : ds.Pairwise fun d d' => ∀ j ∈ d.kind.phase?, ∀ k ∈ d'.kind.phase?, j ≤ k
  bound : ∀ d ∈ ds, ∀ j ∈ d.kind.phase?, j ≤ i

theorem InPhase.of_problems {π : Type} [Explained π] {ls : List (Located π)} {i : Nat}
    (h : ∀ l ∈ ls, ∀ j ∈ (Explained.kind l.problem).phase?, j = i) :
    InPhase i (ls.map Located.diagnostic) := by
  intro d hd
  obtain ⟨l, hl, rfl⟩ := List.mem_map.mp hd
  exact h l hl

theorem InPhase.phasedUpTo {i : Nat} {ds : List Diagnostic} (h : InPhase i ds) :
    PhasedUpTo i ds := by
  refine ⟨?_, fun d hd j hj => Nat.le_of_eq (h d hd j hj)⟩
  rw [List.pairwise_iff_forall_sublist]
  intro d d' hsub j hj k hk
  have hd : d ∈ ds := hsub.subset (by simp)
  have hd' : d' ∈ ds := hsub.subset (by simp)
  have hj := h d hd j hj
  have hk := h d' hd' k hk
  omega

theorem PhasedUpTo.append {i j : Nat} {ds es : List Diagnostic} (hds : PhasedUpTo i ds)
    (hes : InPhase j es) (hle : i ≤ j) : PhasedUpTo j (ds ++ es) := by
  constructor
  · rw [List.pairwise_append]
    refine ⟨hds.inOrder, hes.phasedUpTo.inOrder, ?_⟩
    intro d hd e he k hk l hl
    have hk := hds.bound d hd k hk
    have hl := hes e he l hl
    omega
  · intro d hd k hk
    rcases List.mem_append.mp hd with hd | hd
    · exact Nat.le_trans (hds.bound d hd k hk) hle
    · exact Nat.le_of_eq (hes d hd k hk)

theorem InPhase.tally_eq_zero {i j : Nat} {ds : List Diagnostic} (h : InPhase i ds) {k : Kind}
    (hk : k.phase? = some j) (hne : j ≠ i) : tally ds k = 0 := by
  rw [tally, List.countP_eq_zero]
  intro d hd hkind
  rw [beq_iff_eq] at hkind
  exact hne (h d hd j (hkind ▸ hk))

theorem tally_append (ds es : List Diagnostic) (k : Kind) :
    tally (ds ++ es) k = tally ds k + tally es k :=
  List.countP_append

end Diagnostic

section Phases

open Diagnostic

theorem Registry.ofProgram_inPhase (program : Option Program) :
    InPhase 0 (Registry.ofProgram program).diagnostics := by
  refine InPhase.of_problems fun l hl j hj => ?_
  rw [show Explained.kind l.problem = _ from register_kind _ _ l hl] at hj
  cases hj

theorem Hierarchy.ofRegistry_inPhase (r : Registry) : InPhase 1 (ofRegistry r).diagnostics := by
  intro d hd j hj
  rw [ofRegistry_diagnostics] at hd
  obtain ⟨c, -, hc⟩ := List.mem_filterMap.mp hd
  obtain ⟨problem, hproblem, rfl⟩ := Option.map_eq_some_iff.mp hc
  change j ∈ problem.kind.phase? at hj
  rw [Registry.refusal?_kind hproblem] at hj
  exact (Option.mem_some.mp hj).symm

theorem MemberProblem.inPhase (ls : List (Located MemberProblem)) :
    InPhase 2 (ls.map Located.diagnostic) := by
  refine InPhase.of_problems fun l _ j hj => ?_
  change j ∈ l.problem.kind.phase? at hj
  cases hproblem : l.problem <;> rw [hproblem] at hj <;> cases hj
  rfl

theorem EntryProblem.inPhase (ls : List (Located EntryProblem)) :
    InPhase 3 (ls.map Located.diagnostic) := by
  refine InPhase.of_problems fun l _ j hj => ?_
  change j ∈ l.problem.kind.phase? at hj
  cases hproblem : l.problem <;> rw [hproblem] at hj <;> cases hj <;> rfl

theorem TypingProblem.inPhase (ls : List (Located TypingProblem)) :
    InPhase 4 (ls.map Located.diagnostic) := by
  refine InPhase.of_problems fun l _ j hj => ?_
  change j ∈ l.problem.kind.phase? at hj
  cases hproblem : l.problem <;> rw [hproblem] at hj <;> cases hj <;> rfl

theorem EntryPoint.problems_tally (entry : EntryPoint) (t : ClassTable) :
    let ds := (entry.problems t).map Located.diagnostic
    tally ds .missingMain ≤ 1 ∧ tally ds .malformedMain ≤ 2 ∧
      (tally ds .missingMain = 0 ∨ tally ds .malformedMain = 0) := by
  rw [EntryPoint.problems]
  cases t.find? entry.className with
  | none => exact ⟨Nat.le_refl _, Nat.zero_le _, .inr rfl⟩
  | some c =>
    cases hsig : c.own.signatures.peek entry.methodName with
    | none =>
      simp only [hsig]
      exact ⟨Nat.le_refl _, Nat.zero_le _, .inr rfl⟩
    | some sig =>
      simp only [hsig]
      split_ifs
      · exact ⟨Nat.zero_le _, Nat.zero_le _, .inl rfl⟩
      · exact ⟨Nat.zero_le _, Nat.le_succ _, .inl rfl⟩
      · exact ⟨Nat.zero_le _, Nat.le_succ _, .inl rfl⟩
      · exact ⟨Nat.zero_le _, Nat.le_refl _, .inl rfl⟩

variable (program : Option Program) (entry : EntryPoint)

theorem analyze_phasedUpTo : PhasedUpTo 4 (analyze program entry).diagnostics := by
  rw [diagnostics_analyze, structuralDiagnostics]
  -- the list is taken apart from its end, the last phase first
  refine PhasedUpTo.append (i := 3) ?_ (TypingProblem.inPhase _) (by omega)
  refine PhasedUpTo.append (i := 2) ?_ (EntryProblem.inPhase _) (by omega)
  refine PhasedUpTo.append (i := 1) ?_ (MemberProblem.inPhase _) (by omega)
  refine PhasedUpTo.append (i := 0) ?_ (Hierarchy.ofRegistry_inPhase _) (by omega)
  exact (Registry.ofProgram_inPhase program).phasedUpTo

theorem tally_analyze_entryPoint {k : Kind} (hk : k.phase? = some 3) :
    tally (analyze program entry).diagnostics k =
      tally ((entry.problems (.ofHierarchy (Hierarchy.ofProgram program))).map
        Located.diagnostic) k := by
  have hregistry := (Registry.ofProgram_inPhase program).tally_eq_zero hk (by omega)
  have hlinks := (Hierarchy.ofRegistry_inPhase
    (Registry.ofProgram program).value).tally_eq_zero hk (by omega)
  have hmembers := (MemberProblem.inPhase (Reported.forEach (Hierarchy.ofProgram program).order
    (Hierarchy.ofProgram program).members).reports).tally_eq_zero hk (by omega)
  have htyping := (TypingProblem.inPhase
    (Hierarchy.ofProgram program).typing.reports).tally_eq_zero hk (by omega)
  rw [diagnostics_analyze, structuralDiagnostics]
  simp only [tally_append]
  rw [hregistry, hlinks, Reported.diagnostics, hmembers, Reported.diagnostics, htyping]
  omega

end Phases

section Reasons

theorem HierarchyProblem.reason_ne_none_iff (problem : HierarchyProblem) :
    problem.reason ≠ .none ↔ problem.kind = .illegalInheritance := by
  cases problem <;> simp [reason, kind]

theorem reason_ne_none_iff {program : Option Program} {entry : EntryPoint} {d : Diagnostic}
    (hd : d ∈ (analyze program entry).diagnostics) :
    d.reason ≠ .none ↔ d.kind = .illegalInheritance := by
  simp only [diagnostics_analyze, structuralDiagnostics, Reported.diagnostics, List.mem_append,
    List.mem_map] at hd
  rcases hd with (((⟨l, -, rfl⟩ | ⟨l, -, rfl⟩) | ⟨l, -, rfl⟩) | ⟨l, -, rfl⟩) | ⟨l, -, rfl⟩
  · exact l.problem.reason_ne_none_iff
  · exact l.problem.reason_ne_none_iff
  · exact iff_of_false (fun h => h rfl) l.problem.kind_ne
  · exact iff_of_false (fun h => h rfl) l.problem.kind_ne
  · exact iff_of_false (fun h => h rfl) l.problem.kind_ne

end Reasons

/-- Of two diagnostics whose kinds are each reported by one phase alone, the one of the earlier
phase comes first. Reasons are given for illegal inheritance and for nothing else. The entry point
is reported missing at most once and misshapen at most twice, and never both. -/
theorem diagnostics_in_phase_order (program : Option Program) (entry : EntryPoint) :
    let ds := (analyze program entry).diagnostics
    (ds.Pairwise fun d d' => ∀ i ∈ d.kind.phase?, ∀ j ∈ d'.kind.phase?, i ≤ j) ∧
      (∀ d ∈ ds, d.reason ≠ .none ↔ d.kind = .illegalInheritance) ∧
      Diagnostic.tally ds .missingMain ≤ 1 ∧ Diagnostic.tally ds .malformedMain ≤ 2 ∧
      (Diagnostic.tally ds .missingMain = 0 ∨ Diagnostic.tally ds .malformedMain = 0) := by
  intro ds
  refine ⟨(analyze_phasedUpTo program entry).inOrder, fun d hd => reason_ne_none_iff hd, ?_⟩
  rw [tally_analyze_entryPoint program entry rfl, tally_analyze_entryPoint program entry rfl]
  exact entry.problems_tally _

end ClassCheck
