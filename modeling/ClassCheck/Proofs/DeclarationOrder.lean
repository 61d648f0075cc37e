import Mathlib.Data.List.Pairwise
import ClassCheck.Proofs.BreadthFirst
import ClassCheck.Proofs.Confinement
import ClassCheck.Proofs.Gate
import ClassCheck.Proofs.Mirrors
import ClassCheck.Proofs.Phases

/-!
# The order of declarations

If class names are distinct and no expression is shared, the order in which the classes of a program
are declared does not matter: it decides the order of the reports, and nothing else.
-/

namespace ClassCheck

theorem find?_name_perm {α : Type} {name : α → String} {l l' : List α} (nodup : (l.map name).Nodup)
    (perm : l'.Perm l) (n : String) : l'.find? (name · == n) = l.find? (name · == n) := by
  have nodup' : (l'.map name).Nodup := (perm.map name).nodup_iff.mpr nodup
  apply Option.ext
  intro a
  rw [find?_name_eq_some_iff nodup, find?_name_eq_some_iff nodup', perm.mem_iff]

theorem firstDeclared_iff_mem {ds : List (Option ClassDecl)} {d : ClassDecl}
    (distinct : ((ds.filterMap id).map (·.name)).Nodup) : FirstDeclared ds d ↔ some d ∈ ds := by
  constructor
  · intro h
    exact h.mem
  · intro h
    have hnone : ([] ++ (ds.filterMap id).map ClassDecl.name).Nodup := distinct
    exact (Registry.firstDeclared_of_nodup hnone h).1

namespace Registry

theorem find?_add_of_ne {r : Registry} {c : Registered} {n : String} (hn : c.name ≠ n) :
    (r.add c).find? n = r.find? n := by
  simp [find?, classes, add, List.find?_cons, List.find?_append, hn]

def refusals (r : Registry) (d : ClassDecl) : List (Located HierarchyProblem) :=
  (r.find? d.name).toList.map fun old => ⟨d.file, d.line, redefinition old⟩

theorem reports_register {r : Registry} {ds : List (Option ClassDecl)}
    (distinct : ((ds.filterMap id).map (·.name)).Nodup) :
    (r.register ds).reports = (ds.filterMap id).flatMap r.refusals := by
  induction ds generalizing r with
  | nil => rfl
  | cons o ds ih =>
    cases o with
    | none => exact ih distinct
    | some d =>
      obtain ⟨hnew, hrest⟩ := List.nodup_cons.mp distinct
      change _ = r.refusals d ++ (ds.filterMap id).flatMap r.refusals
      cases hd : r.find? d.name with
      | none =>
        rw [register_new hd, ih hrest, refusals, hd]
        refine List.flatMap_congr fun e he => ?_
        have hne : (⟨d, .user⟩ : Registered).name ≠ e.name :=
          fun h => hnew (List.mem_map.mpr ⟨e, he, h.symm⟩)
        rw [refusals, find?_add_of_ne hne, refusals]
      | some old =>
        rw [register_old hd, Reported.reports_bind, ih hrest, refusals, hd]
        rfl

section Perm

variable {ds ds' : List (Option ClassDecl)}
  (distinct : ((ds.filterMap id).map (·.name)).Nodup) (perm : ds'.Perm ds)
include distinct perm

theorem register_reports_perm (r : Registry) :
    (r.register ds').reports.Perm (r.register ds).reports := by
  have hperm := perm.filterMap id
  have distinct' := ((hperm.map (·.name)).nodup_iff).mpr distinct
  rw [reports_register distinct, reports_register distinct']
  exact hperm.flatMap_right r.refusals

theorem register_others_perm {r : Registry} (nodup : r.names.Nodup) :
    (r.register ds').value.others.Perm (r.register ds).value.others := by
  have distinct' := (((perm.filterMap id).map (·.name)).nodup_iff).mpr distinct
  have hothers : ∀ ds : List (Option ClassDecl), (r.register ds).value.others.Nodup :=
    fun ds => (List.nodup_cons.mp (register_names_nodup nodup ds).of_map).2
  rw [List.perm_ext_iff_of_nodup (hothers ds') (hothers ds)]
  intro c
  simp only [mem_register_others, firstDeclared_iff_mem distinct, firstDeclared_iff_mem distinct',
    perm.mem_iff]

end Perm

theorem Sound.mirrors {r r' : Registry} (sound : r.Sound) (perm : r'.others.Perm r.others) :
    r.Mirrors .keep r' where
  length := (perm.cons BuiltIn.root).length_eq
  find := by
    intro n
    rw [BodyEdit.registered_keep, Option.map_id]
    exact find?_name_perm sound.names_nodup (perm.cons BuiltIn.root) n

end Registry

namespace Hierarchy

section OfRegistry

variable {r r' : Registry} (sound : r.Sound) (perm : r'.others.Perm r.others)
include sound perm

theorem ofRegistry_others_perm :
    (ofRegistry r').value.others.Perm (ofRegistry r).value.others := by
  have hlink : (fun c => (r'.link c).value) = fun c => (r.link c).value :=
    funext fun c => ((sound.mirrors perm).link c).1
  rw [ofRegistry_others, ofRegistry_others, hlink]
  exact perm.map _

theorem ofRegistry_reports_perm : (ofRegistry r').reports.Perm (ofRegistry r).reports := by
  have hlink : (fun c => (r'.link c).reports) = fun c => (r.link c).reports :=
    funext fun c => ((sound.mirrors perm).link c).2
  simp only [ofRegistry, Reported.forEach, Reported.reports_bind, Reported.reports_pure,
    List.append_nil, hlink]
  exact perm.flatMap_right _

end OfRegistry

namespace Linked

variable {h h' : Hierarchy} (linked : h.Linked) (perm : h'.others.Perm h.others)
include linked perm

theorem mirrors : h.Mirrors .keep h' where
  size := (perm.cons root).length_eq
  find := by
    intro n
    rw [BodyEdit.node_keep, Option.map_id]
    exact find?_name_perm linked.names_nodup (perm.cons root) n

theorem members_perm (linked' : h'.Linked) :
    (Reported.forEach h'.order h'.members).reports.Perm
      (Reported.forEach h.order h.members).reports := by
  have hmembers : h'.members = h.members := funext (linked.mirrors perm).members
  have horder := (linked'.order_perm.trans (perm.cons root)).trans linked.order_perm.symm
  simp only [Reported.forEach, hmembers]
  exact horder.flatMap_right _

end Linked

theorem typing_apart (h : Hierarchy) {cs : List ClassNode}
    (apart : cs.Pairwise fun c d => c.decl.visits.Disjoint d.decl.visits) (n : Notes) :
    let typed := (ClassTable.ofHierarchy h).checkedClasses (cs.map h.classInfo) n
    typed.reports = cs.flatMap (fun c => (h.checkedNode c n).reports) ∧
      ∀ c ∈ cs, typed.value.2.AgreeOn c.decl.visits (h.checkedNode c n).value.2 := by
  intro typed
  have hclasses : (cs.map h.classInfo).Pairwise
      fun c d => c.decl.visits.Disjoint d.decl.visits := List.pairwise_map.mpr apart
  obtain ⟨hreports, hnotes⟩ :=
    Confined.checkedClasses_apart (t := .ofHierarchy h) hclasses n
  refine ⟨?_, fun c hc => hnotes _ (List.mem_map_of_mem hc)⟩
  rw [hreports, List.flatMap_map]
  rfl

theorem Mirrors.typing_perm {h h' : Hierarchy} (mirrors : h.Mirrors .keep h')
    {cs cs' : List ClassNode} (perm : cs'.Perm cs)
    (apart : cs.Pairwise fun c d => c.decl.visits.Disjoint d.decl.visits) (n : Notes) :
    let typed := (ClassTable.ofHierarchy h).checkedClasses (cs.map h.classInfo) n
    let typed' := (ClassTable.ofHierarchy h').checkedClasses (cs'.map h'.classInfo) n
    typed'.reports.Perm typed.reports ∧ ∀ x, typed'.value.2.entry x = typed.value.2.entry x := by
  intro typed typed'
  have apart' : cs'.Pairwise fun c d => c.decl.visits.Disjoint d.decl.visits :=
    (perm.pairwise_iff List.disjoint_symm).mpr apart
  have hsame : h.checkedNode = h'.checkedNode :=
    funext fun c => (mirrors.checkedNode (show BodyEdit.keep.node c = c from rfl)).symm
  obtain ⟨hreports, hnotes⟩ := typing_apart h apart n
  obtain ⟨hreports', hnotes'⟩ := typing_apart h' apart' n
  constructor
  · rw [hreports, hreports', hsame]
    exact perm.flatMap_right _
  · intro x
    by_cases hx : ∃ c ∈ cs, x ∈ c.decl.visits
    · obtain ⟨c, hc, hxc⟩ := hx
      rw [hnotes c hc x hxc, hnotes' c (perm.mem_iff.mpr hc) x hxc, hsame]
    · have hout : ∀ (k : Hierarchy) (ds : List ClassNode), ds.Perm cs →
          x ∉ (ds.map k.classInfo).flatMap fun c => c.decl.visits := by
        intro k ds hds hin
        obtain ⟨c, hc, hxc⟩ := List.mem_flatMap.mp hin
        obtain ⟨d, hd, rfl⟩ := List.mem_map.mp hc
        exact hx ⟨d, hds.mem_iff.mp hd, hxc⟩
      have hfirst := (Confined.checkedClasses (.ofHierarchy h) _).frame n x (hout h cs (.refl cs))
      have hsecond := (Confined.checkedClasses (.ofHierarchy h') _).frame n x (hout h' cs' perm)
      exact hsecond.trans hfirst.symm

theorem ofProgram_apart {p : Program} (unshared : p.exprs.Nodup) :
    ((ofProgram (some p)).order.filter (!·.isBuiltIn)).Pairwise
      fun c d => c.decl.visits.Disjoint d.decl.visits := by
  have linked := ofProgram_linked (some p)
  rw [Program.exprs_eq, List.nodup_flatMap] at unshared
  have hdecl : ∀ c ∈ (ofProgram (some p)).order.filter (!·.isBuiltIn),
      c ∈ (ofProgram (some p)).classes ∧ c.decl ∈ p.classes.filterMap id := by
    intro c hc
    obtain ⟨hc, huser⟩ := List.mem_filter.mp hc
    have hin := linked.mem_order.mp hc
    have hfirst := Registry.mem_ofProgram_user.mp
      ⟨c.toRegistered, ofRegistry_mem_registered hin, by simpa using huser, rfl⟩
    exact ⟨hin, List.mem_filterMap.mpr ⟨some c.decl, hfirst.1.mem, rfl⟩⟩
  refine (linked.order_nodup.filter _).pairwise_of_forall_ne fun c hc d hd hne => ?_
  have : Std.Symm (Function.onFun List.Disjoint ClassDecl.visits) :=
    ⟨fun _ _ h => List.disjoint_symm h⟩
  refine unshared.2.forall (hdecl c hc).2 (hdecl d hd).2 fun heq => hne ?_
  exact linked.eq_of_name (hdecl c hc).1 (hdecl d hd).1 (congrArg ClassDecl.name heq)

end Hierarchy

structure ClassInfo.Agrees (c d : ClassInfo) : Prop where
  decl : c.decl = d.decl
  parent : c.parent = d.parent
  fields : c.own.fields = d.own.fields
  methods : c.own.methods = d.own.methods
  field? : ∀ x, c.field? x = d.field? x
  method? : ∀ x, c.method? x = d.method? x

theorem Hierarchy.agrees_of_face {h h' : Hierarchy} {c : ClassNode}
    (hface : (h'.classInfo c).face = (h.classInfo c).face) :
    (h'.classInfo c).Agrees (h.classInfo c) := by
  have hown : (h'.classInfo c).own = (h.classInfo c).own := congrArg ClassFace.own hface
  exact {
    decl := rfl
    parent := rfl
    fields := congrArg Members.fields hown
    methods := congrArg Members.methods hown
    field? := ClassInfo.field?_of_face hface
    method? := ClassInfo.method?_of_face hface }

theorem Hierarchy.Mirrors.agrees {h h' : Hierarchy} (mirrors : h.Mirrors .keep h') (c : ClassNode) :
    (h'.classInfo c).Agrees (h.classInfo c) := agrees_of_face (mirrors.face c)

/-- Declaring the classes of a program in another order reorders the reports, and changes nothing
else: the same classes are linked and filled alike, and expressions have the same types and
marks. -/
theorem declaration_order_irrelevant (p : Program) (entry : EntryPoint)
    (distinct : ((p.classes.filterMap id).map (·.name)).Nodup) (unshared : p.exprs.Nodup)
    (classes : List (Option ClassDecl)) (perm : classes.Perm p.classes) :
    let a := analyze (some p) entry
    let b := analyze (some { p with classes := classes }) entry
    b.diagnostics.Perm a.diagnostics ∧ b.isAccepted = a.isAccepted ∧
      (∀ name, Option.Rel ClassInfo.Agrees (b.class? name) (a.class? name)) ∧
      ∀ e, b.typeOf? e = a.typeOf? e ∧ b.isUpcast e = a.isUpcast e := by
  intro a b
  have linked := Hierarchy.ofProgram_linked (some p)
  have linked' := Hierarchy.ofProgram_linked (some { p with classes := classes })
  have sound := Registry.ofProgram_sound (some p)
  -- The registries hold the same classes, and so do the hierarchies.
  have hregistry := Registry.register_others_perm distinct perm Registry.builtIn_sound.names_nodup
  have hothers : (Hierarchy.ofProgram (some { p with classes := classes })).others.Perm
    (Hierarchy.ofProgram (some p)).others := Hierarchy.ofRegistry_others_perm sound hregistry
  have mirrors := linked.mirrors hothers
  have horder := (linked'.order_perm.trans (hothers.cons Hierarchy.root)).trans
    linked.order_perm.symm
  obtain ⟨htyping, hnotes⟩ := mirrors.typing_perm (horder.filter (!·.isBuiltIn))
    (Hierarchy.ofProgram_apart unshared) Notes.empty
  have hdiagnostics : b.diagnostics.Perm a.diagnostics := by
    rw [diagnostics_analyze, diagnostics_analyze, structuralDiagnostics, structuralDiagnostics,
      entry.problems_of_face (mirrors.find?_face entry.className)]
    refine .append (.append (.append (.append ?_ ?_) ?_) (.refl _)) ?_
    · exact (Registry.register_reports_perm distinct perm _).map _
    · exact (Hierarchy.ofRegistry_reports_perm sound hregistry).map _
    · exact (linked.members_perm hothers linked').map _
    · exact htyping.map _
  refine ⟨hdiagnostics, ?_, ?_, ?_⟩
  · rw [Analysis.isAccepted, Analysis.isAccepted, Bool.eq_iff_iff, List.isEmpty_iff,
      List.isEmpty_iff]
    exact ⟨fun h => (h ▸ hdiagnostics).nil_eq.symm, fun h => (h ▸ hdiagnostics).eq_nil⟩
  · intro name
    rw [Analysis.class?, Analysis.class?, table_analyze, table_analyze,
      ClassTable.find?_ofHierarchy, ClassTable.find?_ofHierarchy, mirrors.find,
      BodyEdit.node_keep, Option.map_id]
    cases (Hierarchy.ofProgram (some p)).find? name with
    | none => exact .none
    | some c => exact .some (mirrors.agrees c)
  · intro e
    have hentry := hnotes e
    rw [Analysis.typeOf?, Analysis.typeOf?, Analysis.isUpcast, Analysis.isUpcast, notes_analyze,
      notes_analyze]
    exact ⟨congrArg Prod.fst hentry, congrArg Prod.snd hentry⟩

def tangledProgram : Program where
  line := 1
  classes := [
    some ⟨"Main.btm", 1, "Main", "Left", [
      some (.method ⟨2, "main", .void, [], [
        .expr 3 (.assign ⟨0, 3⟩ "" "n" (.dispatch ⟨1, 3⟩ .absent "next" []))]⟩)]⟩,
    some ⟨"Left.btm", 1, "Left", "Right", [
      some (.field ⟨2, "n", .int, .bool ⟨2, 2⟩ true⟩)]⟩,
    none,
    some ⟨"String.btm", 1, "String", "", []⟩,
    some ⟨"Right.btm", 1, "Right", "Left", [
      some (.method ⟨2, "next", .int, [], [.ret 3 (.int ⟨3, 3⟩ 1)]⟩)]⟩]

theorem tangledProgram_reversed :
    ((tangledProgram.classes.filterMap id).map (·.name)).Nodup ∧ tangledProgram.exprs.Nodup ∧
    tangledProgram.classes.reverse.Perm tangledProgram.classes ∧
    let a := analyze (some tangledProgram) (.ofNames "" "")
    let b := analyze (some { tangledProgram with classes := tangledProgram.classes.reverse })
      (.ofNames "" "")
    a.diagnostics.length = 5 ∧ b.diagnostics.Perm a.diagnostics ∧ b.diagnostics ≠ a.diagnostics ∧
      ∀ e, b.typeOf? e = a.typeOf? e := by
  have distinct : ((tangledProgram.classes.filterMap id).map (·.name)).Nodup := by decide
  have unshared : tangledProgram.exprs.Nodup := by decide +kernel
  have perm := List.reverse_perm tangledProgram.classes
  obtain ⟨hdiagnostics, -, -, htypes⟩ := declaration_order_irrelevant tangledProgram
    (.ofNames "" "") distinct unshared _ perm
  exact ⟨distinct, unshared, perm, by decide +kernel, hdiagnostics, by decide +kernel,
    fun e => (htypes e).1⟩

end ClassCheck
