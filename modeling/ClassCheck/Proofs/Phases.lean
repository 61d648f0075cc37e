import ClassCheck.Analysis
import ClassCheck.Proofs.Environments

/-! The phases of an analysis. A program is accepted if every one of them is quiet. -/

namespace ClassCheck

def Hierarchy.typing (h : Hierarchy) : Judged (Unit × Notes) :=
  (ClassTable.ofHierarchy h).checkedClasses ((h.order.filter (!·.isBuiltIn)).map h.classInfo)
    Notes.empty

section Analyze

variable (program : Option Program) (entry : EntryPoint)

theorem table_analyze :
    (analyze program entry).table = .ofHierarchy (Hierarchy.ofProgram program) :=
  (Hierarchy.ofProgram_linked program).environment_table

theorem order_analyze :
    (analyze program entry).order =
      (Hierarchy.ofProgram program).order.map (Hierarchy.ofProgram program).classInfo :=
  (Hierarchy.ofProgram_linked program).environment_order

variable {program entry} in
theorem mem_analyze_order {c : ClassInfo} : c ∈ (analyze program entry).order ↔
    ∃ n ∈ (Hierarchy.ofProgram program).classes, (Hierarchy.ofProgram program).classInfo n = c := by
  rw [order_analyze, List.mem_map]
  simp only [(Hierarchy.ofProgram_linked program).mem_order]

theorem analyze_typing :
    let a := analyze program entry
    a.table.checkedClasses (a.order.filter (!·.isBuiltIn)) Notes.empty =
      (Hierarchy.ofProgram program).typing := by
  intro a
  rw [Hierarchy.typing, order_analyze, table_analyze, List.filter_map]
  rfl

theorem notes_analyze :
    (analyze program entry).notes = (Hierarchy.ofProgram program).typing.value.2 := by
  rw [← analyze_typing program entry]
  rfl

/-- What is reported before any expression is typed. -/
def structuralDiagnostics : List Diagnostic :=
  (Registry.ofProgram program).diagnostics ++
    (Hierarchy.ofRegistry (Registry.ofProgram program).value).diagnostics ++
    (Reported.forEach (Hierarchy.ofProgram program).order
      (Hierarchy.ofProgram program).members).diagnostics ++
    (entry.problems (.ofHierarchy (Hierarchy.ofProgram program))).map Located.diagnostic

theorem environment_diagnostics :
    (Hierarchy.ofProgram program).environment.diagnostics =
      (Reported.forEach (Hierarchy.ofProgram program).order
        (Hierarchy.ofProgram program).members).diagnostics :=
  congrArg (List.map Located.diagnostic) (Hierarchy.ofProgram_linked program).environment_reports

theorem diagnostics_analyze :
    (analyze program entry).diagnostics =
      structuralDiagnostics program entry ++ (Hierarchy.ofProgram program).typing.diagnostics := by
  rw [← analyze_typing program entry, structuralDiagnostics, ← environment_diagnostics,
    ← table_analyze program entry]
  rfl

end Analyze

/-- No phase of the analysis of a program reports anything. -/
structure Quiet (program : Option Program) (entry : EntryPoint) : Prop where
  registration : (Registry.ofProgram program).reports = []
  links : (Hierarchy.ofRegistry (Registry.ofProgram program).value).reports = []
  members : ∀ c ∈ (analyze program entry).order,
    ((Hierarchy.ofRegistry (Registry.ofProgram program).value).value.members
      c.toClassNode).reports = []
  entryPoint : entry.problems (analyze program entry).table = []
  typing : ((analyze program entry).table.checkedClasses
    ((analyze program entry).order.filter (!·.isBuiltIn)) Notes.empty).reports = []

theorem diagnostics_eq_nil_iff {program : Option Program} {entry : EntryPoint} :
    (analyze program entry).diagnostics = [] ↔ Quiet program entry := by
  have hmembers : (∀ c ∈ (Hierarchy.ofProgram program).order,
      ((Hierarchy.ofProgram program).members c).reports = []) ↔
      ∀ c ∈ (analyze program entry).order,
        ((Hierarchy.ofProgram program).members c.toClassNode).reports = [] := by
    rw [order_analyze, List.forall_mem_map]
    rfl
  rw [diagnostics_analyze, structuralDiagnostics, ← analyze_typing program entry,
    ← table_analyze program entry]
  simp only [List.append_eq_nil_iff, Reported.diagnostics, List.map_eq_nil_iff, Reported.forEach,
    List.flatMap_eq_nil_iff, hmembers]
  constructor
  · rintro ⟨⟨⟨⟨hregistration, hlinks⟩, hmembers⟩, hentry⟩, htyping⟩
    exact ⟨hregistration, hlinks, hmembers, hentry, htyping⟩
  · intro h
    exact ⟨⟨⟨⟨h.registration, h.links⟩, h.members⟩, h.entryPoint⟩, h.typing⟩

theorem isAccepted_iff {program : Option Program} {entry : EntryPoint} :
    (analyze program entry).isAccepted = true ↔ Quiet program entry :=
  List.isEmpty_iff.trans diagnostics_eq_nil_iff

namespace Registry

theorem register_reports_eq_nil_iff {r : Registry} (nodup : r.names.Nodup)
    {ds : List (Option ClassDecl)} :
    (r.register ds).reports = [] ↔ (r.names ++ (ds.filterMap id).map (·.name)).Nodup := by
  induction ds generalizing r with
  | nil => simpa [register] using nodup
  | cons o ds ih =>
    cases o with
    | none => exact ih nodup
    | some d =>
      cases hd : r.find? d.name with
      | none =>
        have hadd : (r.add ⟨d, .user⟩).names = r.names ++ [d.name] := names_add r ⟨d, .user⟩
        rw [register_new hd, ih (add_names_nodup nodup hd), hadd, List.append_assoc]
        rfl
      | some old =>
        rw [register_old hd]
        have hold := mem_names_of_find? hd
        simp only [Reported.reports_bind, Reported.reports_report, List.singleton_append,
          reduceCtorEq, false_iff]
        intro hnodup
        rw [List.nodup_append] at hnodup
        exact hnodup.2.2 d.name hold d.name (by simp) rfl

theorem firstDeclared_of_nodup {names : List String} {ds : List (Option ClassDecl)}
    (nodup : (names ++ (ds.filterMap id).map (·.name)).Nodup) {d : ClassDecl} (hd : some d ∈ ds) :
    FirstDeclared ds d ∧ d.name ∉ names := by
  rw [List.nodup_append] at nodup
  have hmem : d.name ∈ (ds.filterMap id).map (·.name) :=
    List.mem_map_of_mem (List.mem_filterMap.mpr ⟨some d, hd, rfl⟩)
  refine ⟨?_, fun hn => nodup.2.2 _ hn _ hmem rfl⟩
  obtain ⟨before, after, rfl⟩ := List.append_of_mem hd
  refine ⟨before, after, rfl, ?_⟩
  intro e he hname
  have hparts := nodup.2.1
  rw [List.filterMap_append, List.map_append, List.nodup_append] at hparts
  refine hparts.2.2 e.name ?_ d.name (by simp) hname
  exact List.mem_map_of_mem (List.mem_filterMap.mpr ⟨some e, he, rfl⟩)

end Registry

end ClassCheck
