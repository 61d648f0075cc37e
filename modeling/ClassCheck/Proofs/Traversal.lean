import ClassCheck.Proofs.Coverage
import ClassCheck.Proofs.MemberTables
import ClassCheck.Proofs.RecordedTypes

/-! Typing and the walk agree: on every program, accepted or not, the expressions with a type are
those that the walk visits inside the declarations taken in, and their types are the error type,
void, null, or known. -/

namespace ClassCheck

namespace Registry

theorem mem_ofProgram_user {program : Option Program} {d : ClassDecl} :
    (∃ c ∈ (ofProgram program).value.classes, c.isBuiltIn = false ∧ c.decl = d) ↔
      FirstDeclared ((program.map (·.classes)).getD []) d ∧ d.name ∉ builtIn.names := by
  have hbuiltIn : ∀ c ∈ builtIn.others, c.isBuiltIn = true := by
    intro c hc
    simp only [builtIn, List.mem_cons, List.not_mem_nil, or_false] at hc
    rcases hc with rfl | rfl | rfl <;> rfl
  constructor
  · intro h
    obtain ⟨c, hc, huser, rfl⟩ := h
    rcases List.mem_cons.mp hc with rfl | ho
    · cases huser
    rcases mem_register_others.mp ho with hb | ⟨d, rfl, hd⟩
    · rw [hbuiltIn c hb] at huser
      cases huser
    · exact hd
  · intro h
    exact ⟨⟨d, .user⟩, others_subset (mem_register_others.mpr (Or.inr ⟨d, rfl, h⟩)), rfl, rfl⟩

end Registry

/-- The types that expressions can have in any program. -/
def Ty.Expected (table : ClassTable) (t : Ty) : Prop :=
  t = .error ∨ t = .void ∨ t = .null ∨ table.knows t = true

theorem ClassTable.knows_elem {table : ClassTable} {t : Ty} (ht : table.knows t = true) :
    table.knows t.elem = true := ht

theorem Ty.expected_admissible {table : ClassTable}
    (hs : table.knows (.plain BuiltIn.stringName) = true) :
    Admissible table (Ty.Expected table) where
  void := Or.inr (Or.inl rfl)
  null := Or.inr (Or.inr (Or.inl rfl))
  string := Or.inr (Or.inr (Or.inr hs))
  known := fun t ht => Or.inr (Or.inr (Or.inr ht))
  elem := by
    intro t ht harray
    rcases ht with rfl | rfl | rfl | ht
    · cases harray
    · cases harray
    · cases harray
    · exact Or.inr (Or.inr (Or.inr (ClassTable.knows_elem ht)))
  erroneous := fun _ _ _ => Or.inl rfl
  named := fun _ _ _ => Or.inl (Or.inl rfl)

namespace Hierarchy

theorem ofProgram_knows_string (program : Option Program) :
    (ofProgram program).knows (.plain BuiltIn.stringName) = true := by
  have hmem : BuiltIn.string ∈ (Registry.ofProgram program).value.others :=
    Registry.mem_register_others.mpr (Or.inl List.mem_cons_self)
  have hname : BuiltIn.stringName ∈ (ofProgram program).names := by
    rw [ofRegistry_names]
    exact List.mem_map_of_mem (Registry.others_subset hmem)
  have hknown := List.contains_iff_mem.mpr hname
  change (Ty.isPrimitiveName BuiltIn.stringName || List.contains _ BuiltIn.stringName) = true
  rw [Bool.or_eq_true]
  exact Or.inr hknown

theorem serves_expected (program : Option Program) {c : ClassNode}
    (hc : c ∈ (ofProgram program).classes) :
    Context.Serves ⟨.ofHierarchy (ofProgram program), (ofProgram program).classInfo c⟩
      (Ty.Expected (.ofHierarchy (ofProgram program))) := by
  refine (Ty.expected_admissible ?_).serves hc (Or.inl (Or.inl rfl))
  rw [ClassTable.knows_ofHierarchy]
  exact ofProgram_knows_string program

end Hierarchy

theorem mem_analyze_users {program : Option Program} {entry : EntryPoint} {d : ClassDecl} :
    (∃ c ∈ (analyze program entry).order.filter (!·.isBuiltIn), c.decl = d) ↔
      FirstDeclared ((program.map (·.classes)).getD []) d ∧ d.name ∉ Registry.builtIn.names := by
  rw [← Registry.mem_ofProgram_user]
  constructor
  · rintro ⟨c, hc, rfl⟩
    obtain ⟨horder, huser⟩ := List.mem_filter.mp hc
    obtain ⟨n, hn, rfl⟩ := mem_analyze_order.mp horder
    have hreg := Hierarchy.ofRegistry_mem_registered hn
    exact ⟨n.toRegistered, hreg, by simpa using huser, rfl⟩
  · rintro ⟨c, hc, huser, rfl⟩
    rw [← Hierarchy.ofRegistry_registered] at hc
    obtain ⟨n, hn, rfl⟩ := List.mem_map.mp hc
    refine ⟨(Hierarchy.ofProgram program).classInfo n, List.mem_filter.mpr ⟨?_, ?_⟩, rfl⟩
    · exact mem_analyze_order.mpr ⟨n, hn, rfl⟩
    · simpa using huser

theorem has_analyze_notes_iff (program : Option Program) (entry : EntryPoint) (e : Expr) :
    (analyze program entry).notes.Has e ↔
      ∃ d, FirstDeclared ((program.map (·.classes)).getD []) d ∧
        d.name ∉ Registry.builtIn.names ∧ e ∈ d.visits := by
  have hcover := Covers.checkedClasses (analyze program entry).table
    ((analyze program entry).order.filter (!·.isBuiltIn)) Notes.empty e
  have hempty : ¬ Notes.empty.Has e := by simp [Notes.Has, Notes.empty, Notes.typeOf?]
  refine hcover.trans ?_
  simp only [id, hempty, false_or, List.mem_flatMap]
  constructor
  · rintro ⟨c, hc, he⟩
    obtain ⟨hfirst, hname⟩ := mem_analyze_users.mp ⟨c, hc, rfl⟩
    exact ⟨c.decl, hfirst, hname, he⟩
  · rintro ⟨d, hfirst, hname, he⟩
    obtain ⟨c, hc, rfl⟩ := mem_analyze_users.mpr ⟨hfirst, hname⟩
    exact ⟨c, hc, he⟩

theorem analyze_notes_expected (program : Option Program) (entry : EntryPoint) :
    (analyze program entry).notes.Within (Ty.Expected (analyze program entry).table) := by
  have hserves : ∀ c ∈ (analyze program entry).order.filter (!·.isBuiltIn),
      Context.Serves ⟨(analyze program entry).table, c⟩
        (Ty.Expected (analyze program entry).table) := by
    intro c hc
    obtain ⟨n, hn, rfl⟩ := mem_analyze_order.mp (List.mem_of_mem_filter hc)
    rw [table_analyze]
    exact Hierarchy.serves_expected program hn
  exact (Keeps.checkedClasses hserves Notes.empty (Notes.Within.empty _) (Or.inl (Or.inl rfl))).1

/-- An expression has a type after the analysis exactly if the walk visits it inside a declaration
that was taken in, and the type is one of the expected ones. -/
theorem typed_iff_visited (program : Option Program) (entry : EntryPoint) (e : Expr) :
    let a := analyze program entry
    ((a.typeOf? e).isSome = true ↔
      ∃ d, FirstDeclared ((program.map (·.classes)).getD []) d ∧
        d.name ∉ Registry.builtIn.names ∧
        e ∈ (d.tree.visited fun _ => true).filterMap Node.expr?) ∧
    ∀ t, a.typeOf? e = some t →
      t = .error ∨ t = .void ∨ t = .null ∨ a.table.knows t = true := by
  intro a
  refine ⟨?_, fun t ht => analyze_notes_expected program entry e t ht⟩
  simp only [ClassDecl.exprs_visited]
  exact has_analyze_notes_iff program entry e

end ClassCheck
