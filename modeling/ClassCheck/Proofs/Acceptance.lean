import ClassCheck.Proofs.Gate
import ClassCheck.Proofs.QuietClasses

/-!
# The programs that are accepted

The phases of an analysis are put together: a program as it is parsed is accepted exactly if it is
well formed.
-/

namespace ClassCheck

open Step

namespace Program

variable {p : Program}

/-! ### What a parser sees to -/

namespace Parsed

variable (parsed : p.Parsed)
include parsed

theorem allShaped {d : ClassDecl} (hd : d ∈ p.decls) : Tree.All Node.Shaped [d.tree] := by
  have hprogram : Tree.All Node.Shaped [p.tree] := by
    intro n hn
    refine parsed.shaped n ?_
    rw [Tree.visited_all]
    simpa [Tree.nodesAll] using hn
  exact hprogram.of_class (mem_decls.mp hd)

theorem name_plain {d : ClassDecl} (hd : d ∈ p.decls) : Ty.isSpecialName d.name = false :=
  (Tree.All.node.mp (parsed.allShaped hd)).1.2

theorem member_shaped {d : ClassDecl} (hd : d ∈ p.decls) {m : Member}
    (hm : some m ∈ d.members) : Tree.All Node.Shaped [m.tree] :=
  (parsed.allShaped hd).of_member hm

theorem field_dotless {d : ClassDecl} (hd : d ∈ p.decls) {f : Field} (hf : f ∈ d.fields) :
    Dotless f.name :=
  (Tree.All.node.mp (parsed.member_shaped hd (ClassDecl.mem_fields.mp hf))).1

theorem tidy : Tidy p.exprs := by
  refine ⟨parsed.unshared, fun e he => ?_⟩
  obtain ⟨n, hn, hexpr⟩ := List.mem_filterMap.mp he
  have hshaped := parsed.shaped n hn
  cases n with
  | expr x =>
    cases hexpr
    exact hshaped
  | _ => cases hexpr

end Parsed

theorem FormalsOk.known {Γ Γ' : Locals} {fs : List Formal} (h : p.FormalsOk Γ fs Γ') :
    ∀ f ∈ fs, p.Known f.type := by
  induction h with
  | nil => exact fun f hf => absurd hf List.not_mem_nil
  | cons hbinds _ ih => exact List.forall_mem_cons.mpr ⟨hbinds.2.2.1, ih⟩

/-! ### Classes of the program -/

def checked (p : Program) : List ClassInfo :=
  (p.hierarchy.order.map p.hierarchy.classInfo).filter (!·.isBuiltIn)

theorem mem_checked {c : ClassInfo} : c ∈ p.checked ↔
    ∃ n ∈ p.hierarchy.classes, n.isBuiltIn = false ∧ p.hierarchy.classInfo n = c := by
  have linked := Hierarchy.ofProgram_linked (some p)
  simp only [checked, List.mem_filter, List.mem_map, linked.mem_order]
  constructor
  · intro h
    obtain ⟨⟨n, hn, rfl⟩, huser⟩ := h
    exact ⟨n, hn, by simpa using huser, rfl⟩
  · intro h
    obtain ⟨n, hn, huser, rfl⟩ := h
    exact ⟨⟨n, hn, rfl⟩, by simpa using huser⟩

namespace HierarchyOk

variable (ok : p.HierarchyOk)
include ok

theorem mem_decls_iff {d : ClassDecl} :
    d ∈ p.decls ↔ ∃ c ∈ p.hierarchy.classes, c.isBuiltIn = false ∧ c.decl = d := by
  have nodup := ok.classNames_nodup
  rw [p.classNames_eq] at nodup
  have hfirst : d ∈ p.decls ↔ FirstDeclared p.classes d ∧ d.name ∉ Registry.builtIn.names := by
    rw [mem_decls]
    exact ⟨Registry.firstDeclared_of_nodup nodup, fun h => h.1.mem⟩
  have huser : (∃ c ∈ (Registry.ofProgram (some p)).value.classes,
      c.isBuiltIn = false ∧ c.decl = d) ↔ _ := Registry.mem_ofProgram_user
  refine hfirst.trans (huser.symm.trans ?_)
  rw [← Hierarchy.ofRegistry_registered]
  simp

theorem checked_perm : (p.checked.map (·.decl)).Perm p.decls := by
  have linked := Hierarchy.ofProgram_linked (some p)
  have hnames : ((p.hierarchy.order.map p.hierarchy.classInfo).map (·.decl.name)).Nodup := by
    rw [List.map_map]
    exact (linked.order_perm.map _).nodup_iff.mpr linked.names_nodup
  have hchecked : (p.checked.map (·.decl)).Nodup := by
    refine List.Nodup.of_map (·.name) ?_
    rw [List.map_map]
    exact hnames.sublist (List.filter_sublist.map _)
  refine (List.perm_ext_iff_of_nodup hchecked (List.Nodup.of_map _ ok.names_distinct)).mpr ?_
  intro d
  rw [ok.mem_decls_iff, List.mem_map]
  constructor
  · intro h
    obtain ⟨c, hc, rfl⟩ := h
    obtain ⟨n, hn, huser, rfl⟩ := mem_checked.mp hc
    exact ⟨n, hn, huser, rfl⟩
  · intro h
    obtain ⟨n, hn, huser, rfl⟩ := h
    exact ⟨_, mem_checked.mpr ⟨n, hn, huser, rfl⟩, rfl⟩

theorem checkable (parsed : p.Parsed) (faithful : (ClassTable.ofHierarchy p.hierarchy).Faithful p)
    (hmembers : ∀ d ∈ p.decls, p.MembersOk d) {c : ClassInfo} (hc : c ∈ p.checked) :
    Checkable (.ofHierarchy p.hierarchy) p c := by
  have hd : c.decl ∈ p.decls := ok.checked_perm.mem_iff.mp (List.mem_map_of_mem hc)
  obtain ⟨n, hn, huser, rfl⟩ := mem_checked.mp hc
  refine ⟨⟨faithful, ?_, ?_⟩, ?_, fun m hm => parsed.member_shaped hd hm⟩
  · rw [ClassTable.classes_ofHierarchy]
    exact List.mem_map_of_mem hn
  · rcases ok.root_or_parent hn with rfl | ⟨q, hq⟩
    · cases huser
    · have hparent := ClassTable.parent?_ofHierarchy p.hierarchy n
      rw [hq] at hparent
      exact ⟨_, hparent⟩
  · intro m hm
    cases m with
    | field f => exact (hmembers _ hd).fields_known f (ClassDecl.mem_fields.mpr hm)
    | method m => exact (hmembers _ hd).results_known m (ClassDecl.mem_methods.mpr hm)

theorem typing_quiet_iff (parsed : p.Parsed)
    (faithful : (ClassTable.ofHierarchy p.hierarchy).Faithful p)
    (hmembers : ∀ d ∈ p.decls, p.MembersOk d) :
    Quietly ((ClassTable.ofHierarchy p.hierarchy).checkedClasses p.checked) .empty () ↔
      ∀ d ∈ p.decls, p.BodiesOk d := by
  have hperm := ok.checked_perm
  have hvisits : (p.checked.flatMap fun c => c.decl.visits).Perm p.exprs := by
    rw [p.exprs_eq, ← List.flatMap_map]
    exact hperm.flatMap_right _
  have tidy : Tidy (p.checked.flatMap fun c => c.decl.visits) :=
    ⟨hvisits.nodup_iff.mpr parsed.tidy.1, fun e he => parsed.tidy.2 e (hvisits.mem_iff.mp he)⟩
  have fresh : Notes.empty.Fresh (p.checked.flatMap fun c => c.decl.visits) := by
    intro e _
    simp [Notes.Has, Notes.empty, Notes.typeOf?]
  rw [checkedClasses_iff (fun _ => ok.checkable parsed faithful hmembers) tidy fresh]
  constructor
  · intro h d hd
    obtain ⟨c, hc, rfl⟩ := List.mem_map.mp (hperm.mem_iff.mpr hd)
    exact h c hc
  · intro h c hc
    exact h c.decl (hperm.mem_iff.mp (List.mem_map_of_mem hc))

end HierarchyOk

theorem quiet_iff {p : Program} {entry : EntryPoint} : Quiet (some p) entry ↔
    p.HierarchyOk ∧
    (∀ c ∈ p.hierarchy.classes, (p.hierarchy.members c).reports = []) ∧
    entry.problems (.ofHierarchy p.hierarchy) = [] ∧
    Quietly ((ClassTable.ofHierarchy p.hierarchy).checkedClasses p.checked) .empty () := by
  have htable : (analyze (some p) entry).table = .ofHierarchy p.hierarchy :=
    table_analyze (some p) entry
  have hchecked : (analyze (some p) entry).order.filter (!·.isBuiltIn) = p.checked := by
    rw [order_analyze]
    rfl
  rw [hierarchyOk_iff, ← htable, ← hchecked]
  constructor
  · intro quiet
    refine ⟨⟨quiet.registration, quiet.links⟩, ?_, quiet.entryPoint, ?_⟩
    · intro c hc
      exact quiet.members _ (mem_analyze_order.mpr ⟨c, hc, rfl⟩)
    · obtain ⟨_, n, h⟩ := reports_eq_nil_iff.mp quiet.typing
      exact ⟨n, h⟩
  · intro h
    obtain ⟨⟨hregistration, hlinks⟩, hmembers, hentry, n, htyping⟩ := h
    refine ⟨hregistration, hlinks, ?_, hentry, reports_eq_nil_iff.mpr ⟨(), n, htyping⟩⟩
    intro c hc
    obtain ⟨a, ha, rfl⟩ := mem_analyze_order.mp hc
    exact hmembers a ha

end Program

/-- A program as it is parsed is accepted exactly if it is well formed. -/
theorem accepted_iff_wellFormed (p : Program) (parsed : p.Parsed) (className methodName : String) :
    (analyze (some p) (.ofNames className methodName)).isAccepted = true ↔
      p.WellFormed className methodName := by
  rw [isAccepted_iff, Program.quiet_iff]
  have hplain := fun d hd => parsed.name_plain (d := d) hd
  have hdot := fun d hd f hf => parsed.field_dotless (d := d) hd (f := f) hf
  constructor
  · intro h
    obtain ⟨ok, hquiet, hentry, htyping⟩ := h
    have hmembers := (ok.members_quiet_iff_membersOk hdot).mp hquiet
    -- no earlier phase looks at the formals, so their types come from the check itself
    have hformals : ∀ d ∈ p.decls, ∀ m ∈ d.methods, ∀ f ∈ m.formals, p.Known f.type := by
      intro d hd m hm f hf
      obtain ⟨c, hc, rfl⟩ := List.mem_map.mp (ok.checked_perm.mem_iff.mpr hd)
      have hknows := ClassTable.knows_of_checkedClasses htyping hc hm f hf
      rw [ClassTable.knows_ofHierarchy] at hknows
      exact ok.knows_iff.mp hknows
    have faithful := ok.faithful hplain hdot hquiet hformals
    exact ⟨ok, hmembers, (ok.entry_quiet_iff hdot hquiet className methodName).mp hentry,
      (ok.typing_quiet_iff parsed faithful hmembers).mp htyping⟩
  · intro wf
    have ok := wf.hierarchy
    have hquiet := (ok.members_quiet_iff_membersOk hdot).mpr wf.members
    have hformals : ∀ d ∈ p.decls, ∀ m ∈ d.methods, ∀ f ∈ m.formals, p.Known f.type := by
      intro d hd m hm
      obtain ⟨Γ, Γ', hformals, -⟩ := (wf.bodies d hd).methods m hm
      exact hformals.known
    have faithful := ok.faithful hplain hdot hquiet hformals
    exact ⟨ok, hquiet, (ok.entry_quiet_iff hdot hquiet className methodName).mpr wf.entry,
      (ok.typing_quiet_iff parsed faithful wf.members).mpr wf.bodies⟩

theorem counterProgram_wellFormed :
    counterProgram.Parsed ∧ counterProgram.WellFormed "" "" := by
  have parsed : counterProgram.Parsed := by
    constructor
    · rw [Tree.visited_all]
      simp [counterProgram, Program.tree, ClassDecl.tree, Member.tree, Field.tree, Method.tree,
        Stmt.trees, Stmt.treesOfAll, Expr.trees, Expr.treesOfAll, Tree.nodes, Tree.nodesAll,
        Node.Shaped, Stmt.Shaped, Expr.Shaped, Dotless, Ty.isSpecialName, Ty.isPrimitiveName]
    · decide +kernel
  exact ⟨parsed, (accepted_iff_wellFormed counterProgram parsed "" "").mp (by decide +kernel)⟩

end ClassCheck
