import ClassCheck.Proofs.BodyEdits
import ClassCheck.Proofs.RefusedLinks
import ClassCheck.Proofs.Traversal

/-! A class whose name is taken already leaves no trace but the report on it: all that comes after
registration looks at the classes taken in, and adds its reports behind those on registration. -/

namespace ClassCheck

namespace Registry

def analyzed (r : Registry) (entry : EntryPoint) : Analysis :=
  let hierarchy := Hierarchy.ofRegistry r
  let h := hierarchy.value
  { table := .ofHierarchy h
    order := h.order.map h.classInfo
    notes := h.typing.value.2
    diagnostics :=
      hierarchy.diagnostics ++ (Reported.forEach h.order h.members).diagnostics ++
        (entry.problems (.ofHierarchy h)).map Located.diagnostic ++ h.typing.diagnostics }

theorem analyze_eq_analyzed (program : Option Program) (entry : EntryPoint) :
    let registry := ofProgram program
    let later := registry.value.analyzed entry
    (analyze program entry).table = later.table ∧ (analyze program entry).order = later.order ∧
      (analyze program entry).notes = later.notes ∧
      (analyze program entry).diagnostics = registry.diagnostics ++ later.diagnostics := by
  refine ⟨table_analyze program entry, order_analyze program entry,
    notes_analyze program entry, ?_⟩
  rw [diagnostics_analyze, structuralDiagnostics]
  simp only [analyzed, List.append_assoc]

/-- A declaration whose name is taken changes nothing in the registry, and is reported where its
turn comes. -/
theorem register_dropped {r : Registry} {before : List (Option ClassDecl)} {d : ClassDecl}
    (after : List (Option ClassDecl))
    (taken : d.name ∈ r.names ∨ ∃ e, some e ∈ before ∧ e.name = d.name) :
    ∃ old first last, (r.register (before ++ after)).reports = first ++ last ∧
      r.register (before ++ some d :: after) =
        ⟨(r.register (before ++ after)).value,
          first ++ ⟨d.file, d.line, redefinition old⟩ :: last⟩ := by
  have hname : d.name ∈ (r.register before).value.names := mem_register_names.mpr taken
  cases hold : (r.register before).value.find? d.name with
  | none => exact absurd hname (find?_eq_none_iff.mp hold)
  | some old =>
    refine ⟨old, (r.register before).reports,
      ((r.register before).value.register after).reports, ?_, ?_⟩
    · rw [register_append, Reported.reports_bind]
    · rw [register_append, register_append]
      apply Reported.ext
      · rw [Reported.value_bind, register_old hold]
        rfl
      · rw [Reported.reports_bind, register_old hold]
        rfl

end Registry

/-- Dropping a class whose name is taken changes nothing but the list of diagnostics, which loses
one entry among those on registration. -/
theorem duplicate_class_dropped (line : Int) (before after : List (Option ClassDecl))
    (d : ClassDecl) (entry : EntryPoint)
    (taken : d.name ∈ Registry.builtIn.names ∨ ∃ e, some e ∈ before ∧ e.name = d.name)
    (unshared : ∀ e ∈ d.visits, e ∉ Program.exprs ⟨line, before ++ after⟩) :
    let p : Program := ⟨line, before ++ some d :: after⟩
    let q : Program := ⟨line, before ++ after⟩
    let a := analyze (some p) entry
    let b := analyze (some q) entry
    a.order = b.order ∧ a.table = b.table ∧ (∀ c, a.table.parent? c = b.table.parent? c) ∧
      (∀ e, a.typeOf? e = b.typeOf? e ∧ a.isUpcast e = b.isUpcast e) ∧
      (∀ e ∈ d.visits, a.typeOf? e = none) ∧
      ∃ (new : Diagnostic) (first last later : List Diagnostic),
        new.kind = .duplicateDefinition ∧ new.file = d.file ∧ new.line = d.line ∧
        (Registry.ofProgram (some q)).diagnostics = first ++ last ∧
        (Registry.ofProgram (some p)).diagnostics = first ++ new :: last ∧
        b.diagnostics = first ++ last ++ later ∧
        a.diagnostics = first ++ new :: last ++ later := by
  intro p q a b
  obtain ⟨old, first, last, hq, hp⟩ := Registry.register_dropped after taken
  have hregistry : Registry.ofProgram (some p) = ⟨(Registry.ofProgram (some q)).value,
      first ++ ⟨d.file, d.line, Registry.redefinition old⟩ :: last⟩ := hp
  obtain ⟨hta, hoa, hna, hda⟩ := Registry.analyze_eq_analyzed (some p) entry
  obtain ⟨htb, hob, hnb, hdb⟩ := Registry.analyze_eq_analyzed (some q) entry
  have hsame : (Registry.ofProgram (some p)).value = (Registry.ofProgram (some q)).value := by
    rw [hregistry]
  rw [hsame] at hta hoa hna hda
  have htable : a.table = b.table := hta.trans htb.symm
  have hnotes : a.notes = b.notes := hna.trans hnb.symm
  refine ⟨hoa.trans hob.symm, htable, fun c => by rw [htable], ?_, ?_, ?_⟩
  · intro e
    rw [Analysis.typeOf?, Analysis.typeOf?, Analysis.isUpcast, Analysis.isUpcast, hnotes]
    exact ⟨rfl, rfl⟩
  · intro e he
    by_contra hsome
    -- what has a type was met in a class of the program without `d`
    have hhas : b.notes.Has e := by
      rw [← hnotes]
      exact Option.isSome_iff_ne_none.mpr hsome
    obtain ⟨k, hfirst, -, hk⟩ := (has_analyze_notes_iff (some q) entry e).mp hhas
    refine unshared e he ?_
    rw [Program.exprs_eq]
    exact List.mem_flatMap.mpr ⟨k, List.mem_filterMap.mpr ⟨some k, hfirst.mem, rfl⟩, hk⟩
  · have hkind := Registry.register_kind Registry.builtIn p.classes
      ⟨d.file, d.line, Registry.redefinition old⟩ (by rw [hp]; simp)
    have hbefore : (Registry.ofProgram (some q)).diagnostics =
        first.map Located.diagnostic ++ last.map Located.diagnostic := by
      rw [Reported.diagnostics, ← List.map_append, ← hq]
      rfl
    have hwith : (Registry.ofProgram (some p)).diagnostics = first.map Located.diagnostic ++
        Located.diagnostic ⟨d.file, d.line, Registry.redefinition old⟩ ::
          last.map Located.diagnostic := by
      rw [Reported.diagnostics, ← List.map_cons, ← List.map_append]
      exact congrArg (List.map Located.diagnostic) (congrArg Reported.reports hregistry)
    refine ⟨_, _, _, ((Registry.ofProgram (some q)).value.analyzed entry).diagnostics,
      hkind, rfl, rfl, hbefore, hwith, ?_, ?_⟩
    · rw [← hbefore]
      exact hdb
    · rw [← hwith]
      exact hda

def secondMain : ClassDecl :=
  ⟨"Again.btm", 7, "Main", "String", [
    some (.method ⟨8, "main", .int, [], [.ret 9 (.int ⟨4, 9⟩ 1)]⟩)]⟩

def firstMain : ClassDecl :=
  ⟨"Main.btm", 1, "Main", "", [
    some (.field ⟨2, "n", .int, .bool ⟨0, 2⟩ true⟩),
    some (.method ⟨3, "main", .void, [], [.expr 4 (.assign ⟨1, 4⟩ "" "n" (.int ⟨2, 4⟩ 1))]⟩)]⟩

theorem secondMain_dropped :
    (∃ e, some e ∈ [some firstMain] ∧ e.name = secondMain.name) ∧
    (∀ e ∈ secondMain.visits, e ∉ Program.exprs ⟨1, [some firstMain] ++ [some firstMain]⟩) ∧
    let a := analyze (some ⟨1, [some firstMain, some secondMain, some firstMain]⟩) (.ofNames "" "")
    let b := analyze (some ⟨1, [some firstMain, some firstMain]⟩) (.ofNames "" "")
    a.table = b.table ∧ a.typeOf? (.int ⟨4, 9⟩ 1) = none ∧
      b.diagnostics.map (·.kind) = [.duplicateDefinition, .typeMismatch] ∧
      a.diagnostics.map (·.line) = [7, 1, 2] := by
  have taken : ∃ e, some e ∈ [some firstMain] ∧ e.name = secondMain.name :=
    ⟨firstMain, List.mem_cons_self, rfl⟩
  have unshared : ∀ e ∈ secondMain.visits,
      e ∉ Program.exprs ⟨1, [some firstMain] ++ [some firstMain]⟩ := by decide +kernel
  obtain ⟨-, htable, -, -, huntyped, -⟩ := duplicate_class_dropped 1 [some firstMain]
    [some firstMain] secondMain (.ofNames "" "") (Or.inr taken) unshared
  exact ⟨taken, unshared, htable, huntyped _ (by decide +kernel), by decide +kernel,
    by decide +kernel⟩

end ClassCheck
