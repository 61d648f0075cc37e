import ClassCheck.Proofs.DeclarationOrder
import ClassCheck.Proofs.IndependentBodies
import ClassCheck.Proofs.ReportSites
import ClassCheck.Proofs.UnmentionedName
import ClassCheck.Proofs.VisibleMembers

/-!
# Adding an unrelated class

A class that the rest of a program does not mention can be added anywhere: it becomes a leaf of the
hierarchy, the other classes are linked, filled and typed as before, and whatever is reported in
addition is reported in the file of the new class.
-/

namespace ClassCheck

/-- The second list is the first with elements put in between that have the property `new`. -/
inductive Enlarged {α : Type} (new : α → Prop) : List α → List α → Prop where
  | nil : Enlarged new [] []
  | keep {l l' : List α} (a : α) : Enlarged new l l' → Enlarged new (a :: l) (a :: l')
  | add {l l' : List α} {a : α} : new a → Enlarged new l l' → Enlarged new l (a :: l')

namespace Enlarged

variable {α : Type} {new : α → Prop}

theorem refl (l : List α) : Enlarged new l l := by
  induction l with
  | nil => exact .nil
  | cons a l ih => exact .keep a ih

theorem append {l l' k k' : List α} (h : Enlarged new l l') (hk : Enlarged new k k') :
    Enlarged new (l ++ k) (l' ++ k') := by
  induction h with
  | nil => exact hk
  | keep a _ ih => exact .keep a ih
  | add ha _ ih => exact .add ha ih

theorem insert {more : List α} (h : ∀ a ∈ more, new a) (first last : List α) :
    Enlarged new (first ++ last) (first ++ more ++ last) := by
  rw [List.append_assoc]
  refine (refl first).append ?_
  induction more with
  | nil => exact refl last
  | cons a more ih =>
    obtain ⟨ha, hmore⟩ := List.forall_mem_cons.mp h
    exact .add ha (ih hmore)

end Enlarged

theorem Reported.Stands.enlarged {π α : Type} [Explained π] {file : String} {L : Int → Prop}
    {more : Reported π α} (stands : more.Stands file L) {reports reports' : List (Located π)}
    {first last : List (Located π)} (h : reports = first ++ last)
    (h' : reports' = first ++ more.reports ++ last) :
    Enlarged (fun d : Diagnostic => d.file = file) (reports.map Located.diagnostic)
      (reports'.map Located.diagnostic) := by
  rw [h, h', List.map_append, List.map_append, List.map_append]
  refine Enlarged.insert ?_ _ _
  intro d hd
  obtain ⟨r, hr, rfl⟩ := List.mem_map.mp hd
  exact (stands r hr).1

namespace Registry

theorem builtIn_apart {x : String} (hx : x ∉ builtIn.names) :
    ∀ b ∈ builtIn.classes, b.decl.Apart x := by
  have hmethods : ∀ b ∈ builtIn.classes, ∀ m ∈ b.decl.methods,
      (m.returnType = .void ∨ m.returnType.name ∈ builtIn.names ∨
        m.returnType = .int ∨ m.returnType = .boolean) ∧
      ∀ f ∈ m.formals, f.type.name ∈ builtIn.names ∨ f.type = .int ∨ f.type = .boolean := by decide
  have hne : ∀ t : Ty, t.name ∈ builtIn.names ∨ t = .int ∨ t = .boolean → t.Apart x :=
    fun t => Or.imp_left fun ht h => hx (h ▸ ht)
  intro b hb member hmember
  cases member with
  | field f =>
    have hf : f ∈ b.decl.fields := ClassDecl.mem_fields.mpr hmember
    rw [(builtIn_members b hb).1] at hf
    cases hf
  | method m =>
    obtain ⟨hreturn, hformals⟩ := hmethods b hb m (ClassDecl.mem_methods.mpr hmember)
    exact ⟨hreturn.imp_right (hne _), fun f hf => hne _ (hformals f hf)⟩

end Registry

namespace Hierarchy

theorem checkedNode_confined (h : Hierarchy) (c : ClassNode) :
    Check.Confined (h.checkedNode c) c.decl.visits := by
  rw [ClassDecl.visits_eq]
  exact Confined.checkedMembers (h.context c) c.decl.members

theorem checkedNode_stands (h : Hierarchy) (c : ClassNode) (n : Notes) :
    (h.checkedNode c n).Stands c.decl.file fun _ => True :=
  Context.checkedMembers_stands (fun _ _ node _ => node.on_any) n

theorem members_stands (h : Hierarchy) (c : ClassNode) :
    (h.members c).Stands c.decl.file fun _ => True :=
  Members.declareAll_stands (fun _ _ node _ => node.on_any) _ h _

namespace Gains

variable {h h' : Hierarchy} {c : ClassNode} (gains : h.Gains c h')
  (apart : ∀ d ∈ h.classes, d.decl.Apart c.name)
include gains apart

theorem members_enlarged :
    Enlarged (fun d : Diagnostic => d.file = c.decl.file)
      (Reported.forEach h.order h.members).diagnostics
      (Reported.forEach h'.order h'.members).diagnostics := by
  obtain ⟨first, last, ho, ho'⟩ := gains.order_place
  have hmembers : ∀ ds ⊆ h.order, ds.flatMap (fun d => (h'.members d).reports) =
      ds.flatMap fun d => (h.members d).reports :=
    fun ds hds => List.flatMap_congr fun d hd => by
      rw [gains.members apart (gains.small.mem_order.mp (hds hd))]
  have hfirst := hmembers first (ho ▸ List.subset_append_left first last)
  have hlast := hmembers last (ho ▸ List.subset_append_right first last)
  have hreports : (Reported.forEach h.order h.members).reports =
      (first.flatMap fun d => (h.members d).reports) ++
        last.flatMap fun d => (h.members d).reports := by
    rw [Reported.forEach, ho, List.flatMap_append]
  refine (h'.members_stands c).enlarged hreports ?_
  rw [Reported.forEach, ho', List.flatMap_append, List.flatMap_cons, hfirst, hlast,
    List.append_assoc]

variable (hstring : BuiltIn.stringName ≠ c.name)
include hstring

theorem checkedNodes {ds : List ClassNode} (hds : ds ⊆ h.classes)
    (omits : ∀ d ∈ ds, Tree.All (Node.Omits c.name) [d.decl.tree]) :
    Coincides (·.Within (Ty.Avoids c.name)) (h.checkedNodes ds) (h'.checkedNodes ds)
      fun _ => True := by
  induction ds with
  | nil => exact Coincides.pure trivial
  | cons d ds ih =>
    obtain ⟨hd, hrest⟩ := List.cons_subset.mp hds
    have hclass := Coincides.checkedMembers (gains.ignores apart hstring hd)
      fun m hm => (omits d List.mem_cons_self).of_member hm
    rw [checkedNodes_cons, checkedNodes_cons]
    exact hclass.bind fun _ _ => ih hrest fun e he => omits e (List.mem_cons_of_mem d he)

omit apart hstring in
theorem typed_place (user : c.isBuiltIn = false) :
    ∃ left right, h.order.filter (!·.isBuiltIn) = left ++ right ∧
      h'.order.filter (!·.isBuiltIn) = left ++ c :: right := by
  obtain ⟨first, last, ho, ho'⟩ := gains.order_place
  refine ⟨first.filter (!·.isBuiltIn), last.filter (!·.isBuiltIn), ?_, ?_⟩
  · rw [ho, List.filter_append]
  · rw [ho', List.filter_append, List.filter_cons_of_pos (by simp [user])]

theorem typing_enlarged (user : c.isBuiltIn = false) {es : List Expr}
    (others : ∀ d ∈ h.classes, d.isBuiltIn = false →
      Tree.All (Node.Omits c.name) [d.decl.tree] ∧ d.decl.visits ⊆ es)
    (unshared : c.decl.visits.Disjoint es) :
    Enlarged (fun d : Diagnostic => d.file = c.decl.file) h.typing.diagnostics
        h'.typing.diagnostics ∧
      ∀ x, x ∉ c.decl.visits → h.typing.value.2.entry x = h'.typing.value.2.entry x := by
  obtain ⟨left, right, hsmall, hlarge⟩ := gains.typed_place user
  have htyped : ∀ d ∈ left ++ right, d ∈ h.classes ∧ d.isBuiltIn = false := by
    intro d hd
    rw [← hsmall, List.mem_filter] at hd
    exact ⟨gains.small.mem_order.mp hd.1, by simpa using hd.2⟩
  have hconfined : ∀ ds ⊆ left ++ right, Check.Confined (h'.checkedNodes ds) es := by
    intro ds hds
    refine (h'.checkedNodes_confined ds).mono fun x hx => ?_
    obtain ⟨d, hd, hxd⟩ := List.mem_flatMap.mp hx
    obtain ⟨hclass, huser⟩ := htyped d (hds hd)
    exact (others d hclass huser).2 hxd
  -- Nothing the leaf brings is noted before it is typed, so the others can be typed in `h'`.
  have hwithout : h.typing = (h'.checkedNodes left >>= fun _ => pure () >>= fun _ =>
      h'.checkedNodes right) Notes.empty := by
    have hsame := gains.checkedNodes apart hstring (fun d hd => (htyped d hd).1)
      (fun d hd => (others d (htyped d hd).1 (htyped d hd).2).1) Notes.empty (.empty _)
    change h.checkedNodes (h.order.filter (!·.isBuiltIn)) Notes.empty = _
    rw [hsmall, hsame.1, checkedNodes_append]
    simp only [pure_bind]
  have hwith : h'.typing = (h'.checkedNodes left >>= fun _ => h'.checkedNode c >>= fun _ =>
      h'.checkedNodes right) Notes.empty := by
    change h'.checkedNodes (h'.order.filter (!·.isBuiltIn)) Notes.empty = _
    rw [hlarge, checkedNodes_append, checkedNodes_cons]
  obtain ⟨⟨before, after, hreports, hreports'⟩, hnotes⟩ := Confined.exchange
    (hconfined left (List.subset_append_left left right)) (Confined.pure ())
    (h'.checkedNode_confined c) (hconfined right (List.subset_append_right left right))
    (List.disjoint_nil_left es) unshared Notes.empty
  rw [← hwithout] at hreports hnotes
  rw [← hwith] at hreports' hnotes
  refine ⟨?_, fun x hx => hnotes x List.not_mem_nil hx⟩
  have hquiet : h.typing.reports = before ++ after := by
    rw [hreports, List.append_assoc]
    rfl
  exact (h'.checkedNode_stands c Notes.empty).enlarged hquiet hreports'

end Gains

end Hierarchy

structure Program.Lacks (p : Program) (x : String) : Prop where
  fresh : x ∉ p.classNames
  omits : Tree.All (Node.Omits x) [p.tree]

namespace Program.Lacks

variable {p : Program} {x : String} (lacks : p.Lacks x)
include lacks

theorem not_builtIn : x ∉ Registry.builtIn.names := by
  have hfresh := lacks.fresh
  rw [classNames_eq] at hfresh
  exact fun h => hfresh (List.mem_append_left _ h)

theorem name_ne {d : ClassDecl} (hd : some d ∈ p.classes) : d.name ≠ x := by
  have hfresh := lacks.fresh
  rw [classNames_eq] at hfresh
  intro h
  exact hfresh (h ▸ List.mem_append_right _ (List.mem_map_of_mem (mem_decls.mpr hd)))

theorem wantedParent_ne {c : Registered} (hc : c ∈ (Registry.ofProgram (some p)).value.classes) :
    c.wantedParent ≠ x := by
  rcases Registry.mem_ofProgram hc with hb | ⟨-, hd⟩
  · have hparents : ∀ b ∈ Registry.builtIn.classes, b.wantedParent ∈ Registry.builtIn.names := by
      decide
    exact fun h => lacks.not_builtIn (h ▸ hparents c hb)
  · obtain ⟨hnode, -⟩ := Tree.All.node.mp (lacks.omits.of_class hd)
    exact hnode c.decl.parentName List.mem_cons_self

theorem apart {c : ClassNode} (hc : c ∈ (Hierarchy.ofProgram (some p)).classes) :
    c.decl.Apart x := by
  rcases Registry.mem_ofProgram (Hierarchy.ofRegistry_mem_registered hc) with hb | ⟨-, hd⟩
  · exact Registry.builtIn_apart lacks.not_builtIn _ hb
  · exact ClassDecl.apart_of_omits (lacks.omits.of_class hd)

theorem user_omits {c : ClassNode} (hc : c ∈ (Hierarchy.ofProgram (some p)).classes)
    (user : c.isBuiltIn = false) :
    Tree.All (Node.Omits x) [c.decl.tree] ∧ c.decl.visits ⊆ p.exprs := by
  rcases Registry.mem_ofProgram (Hierarchy.ofRegistry_mem_registered hc) with hb | ⟨-, hd⟩
  · have hbuiltIn : ∀ b ∈ Registry.builtIn.classes, b.isBuiltIn = true := by decide
    rw [show c.isBuiltIn = true from hbuiltIn c.toRegistered hb] at user
    cases user
  · refine ⟨lacks.omits.of_class hd, fun e he => ?_⟩
    rw [exprs_eq]
    exact List.mem_flatMap.mpr ⟨c.decl, List.mem_filterMap.mpr ⟨some c.decl, hd, rfl⟩, he⟩

end Program.Lacks

theorem Registry.ofProgram_gains {line : Int} {before after : List (Option ClassDecl)}
    {new : ClassDecl} (lacks : Program.Lacks ⟨line, before ++ after⟩ new.name) :
    let r := ofProgram (some ⟨line, before ++ after⟩)
    let r' := ofProgram (some ⟨line, before ++ some new :: after⟩)
    r'.reports = r.reports ∧ r.value.Gains ⟨new, .user⟩ r'.value := by
  intro r r'
  set first := (builtIn.register before).value
  have hnew : first.find? new.name = none := by
    rw [find?_eq_none_iff, mem_register_names]
    rintro (hb | ⟨d, hd, hname⟩)
    · exact lacks.not_builtIn hb
    · exact lacks.name_ne (List.mem_append_left after hd) hname
  have hr : r = builtIn.register before >>= fun s => s.register after :=
    register_append _ before after
  have hr' : r' = builtIn.register before >>= fun s => s.register (some new :: after) :=
    register_append _ before _
  have hadd : (first.add ⟨new, .user⟩).others = first.others ++ [⟨new, .user⟩] := rfl
  obtain ⟨hreports, taken, hothers, hothers'⟩ := register_insert (List.append_nil _).symm hadd
    fun d hd => lacks.name_ne (List.mem_append_right before hd)
  refine ⟨?_, ofProgram_sound _, ⟨first.others, taken, ?_, ?_⟩,
    fun c hc => lacks.wantedParent_ne (others_subset hc)⟩
  · rw [hr, hr', Reported.reports_bind, Reported.reports_bind, register_new hnew, hreports]
  · rw [hr, Reported.value_bind, hothers, List.nil_append]
  · rw [hr', Reported.value_bind, register_new hnew, hothers', List.nil_append]

/-- A class that a program does not mention can be added at any place: the diagnostics are those
from before and others in its own file, and types, marks and environments are kept. -/
theorem unrelated_class_conservative (line : Int) (before after : List (Option ClassDecl))
    (new : ClassDecl) (entry : EntryPoint)
    (fresh : new.name ∉ Program.classNames ⟨line, before ++ after⟩)
    (notEntry : new.name ≠ entry.className)
    (unmentioned : ∀ n ∈ (Program.mk line (before ++ after)).tree.visited fun _ => true,
      new.name ∉ n.mentions)
    (unshared : ∀ e ∈ new.visits, e ∉ Program.exprs ⟨line, before ++ after⟩) :
    let p : Program := ⟨line, before ++ after⟩
    let a := analyze (some p) entry
    let b := analyze (some ⟨line, before ++ some new :: after⟩) entry
    Enlarged (fun d => d.file = new.file) a.diagnostics b.diagnostics ∧
      (∀ e ∈ p.exprs, b.typeOf? e = a.typeOf? e ∧ b.isUpcast e = a.isUpcast e) ∧
      ∀ c ∈ a.order, ∃ c', b.class? c.name = some c' ∧ c'.Agrees c := by
  intro p a b
  have lacks : p.Lacks new.name := by
    refine ⟨fresh, fun n hn name hname heq => unmentioned n ?_ (heq ▸ hname)⟩
    rw [Tree.visited_all]
    simpa [Tree.nodesAll] using hn
  obtain ⟨hregistration, hregistry⟩ := Registry.ofProgram_gains lacks
  set r := Registry.ofProgram (some p)
  set r' := Registry.ofProgram (some ⟨line, before ++ some new :: after⟩)
  set h := Hierarchy.ofProgram (some p)
  set h' := Hierarchy.ofProgram (some ⟨line, before ++ some new :: after⟩)
  set c := (r'.value.link ⟨new, .user⟩).value
  have hc : c.toRegistered = ⟨new, .user⟩ := Registry.link_toRegistered _
  have hdecl : c.decl = new := congrArg Registered.decl hc
  have huser : c.isBuiltIn = false := congrArg Registered.isBuiltIn hc
  have hname : new.name = c.name := (congrArg Registered.name hc).symm
  rw [hname] at lacks notEntry
  have gains : h.Gains c h' := Hierarchy.ofRegistry_gains hregistry
  have apart : ∀ d ∈ h.classes, d.decl.Apart c.name := fun d hd => lacks.apart hd
  have hstring : BuiltIn.stringName ≠ c.name := fun heq => lacks.not_builtIn (heq ▸ by decide)
  obtain ⟨htyping, hnotes⟩ := gains.typing_enlarged apart hstring huser
    (fun d hd user => lacks.user_omits hd user) (hdecl ▸ fun e he hp => unshared e he hp)
  have hmembers := gains.members_enlarged apart
  rw [hdecl] at htyping hmembers hnotes
  refine ⟨?_, ?_, ?_⟩
  · obtain ⟨first, last, hlinks, hlinks'⟩ := Hierarchy.ofRegistry_reports hregistry
    rw [diagnostics_analyze, diagnostics_analyze, structuralDiagnostics, structuralDiagnostics,
      entry.problems_of_face (gains.find?_face apart notEntry.symm)]
    refine .append (.append (.append (.append ?_ ?_) hmembers) (.refl _)) htyping
    · rw [Reported.diagnostics, Reported.diagnostics, hregistration]
      exact .refl _
    · exact (r'.value.link_stands ⟨new, .user⟩).enlarged hlinks hlinks'
  · intro e he
    have hentry := hnotes e fun hnew => unshared e hnew he
    rw [Analysis.typeOf?, Analysis.typeOf?, Analysis.isUpcast, Analysis.isUpcast, notes_analyze,
      notes_analyze]
    exact Notes.of_entry hentry.symm
  · intro d hd
    obtain ⟨n, hclass, rfl⟩ := mem_analyze_order.mp hd
    refine ⟨h'.classInfo n, ?_, Hierarchy.agrees_of_face (gains.face apart hclass)⟩
    rw [Analysis.class?, table_analyze]
    change (ClassTable.ofHierarchy h').find? n.name = _
    rw [ClassTable.find?_ofHierarchy, gains.find?_of_ne (gains.name_ne hclass).symm,
      gains.small.find?_eq_some_iff.mpr ⟨hclass, rfl⟩, Option.map_some]

def shapeClasses : List (Option ClassDecl) × List (Option ClassDecl) :=
  ([some ⟨"Main.btm", 1, "Main", "", [
      some (.field ⟨2, "n", .int, .bool ⟨0, 2⟩ true⟩),
      some (.method ⟨3, "main", .void, [], [
        .decl 4 "s" (.plain "Shape") (.newObject ⟨1, 4⟩ "Shape"),
        .expr 5 (.assign ⟨2, 5⟩ "" "n"
          (.dispatch ⟨3, 5⟩ (.var ⟨4, 5⟩ .absent "s") "area" []))]⟩)]⟩],
    [none, some ⟨"Shape.btm", 1, "Shape", "", [
      some (.method ⟨2, "area", .int, [], [.ret 3 (.int ⟨5, 3⟩ 0)]⟩)]⟩])

def squareClass : ClassDecl :=
  ⟨"Square.btm", 1, "Square", "Shape", [
    some (.method ⟨2, "area", .boolean, [], [.ret 3 (.bool ⟨6, 3⟩ true)]⟩),
    some (.field ⟨4, "other", .plain "Square", .newObject ⟨7, 4⟩ "Circle"⟩)]⟩

theorem squareClass_conservative :
    let p : Program := ⟨1, shapeClasses.1 ++ shapeClasses.2⟩
    let entry := EntryPoint.ofNames "" ""
    let a := analyze (some p) entry
    let b := analyze (some ⟨1, shapeClasses.1 ++ some squareClass :: shapeClasses.2⟩) entry
    squareClass.name ∉ p.classNames ∧ squareClass.name ≠ entry.className ∧
      (∀ n ∈ p.tree.visited fun _ => true, squareClass.name ∉ n.mentions) ∧
      (∀ e ∈ squareClass.visits, e ∉ p.exprs) ∧
      Enlarged (fun d => d.file = "Square.btm") a.diagnostics b.diagnostics ∧
      a.diagnostics.map (·.file) = ["Main.btm"] ∧
      b.diagnostics.map (·.file) = ["Square.btm", "Main.btm", "Square.btm"] ∧
      ∀ e ∈ p.exprs, b.typeOf? e = a.typeOf? e := by
  intro p entry a b
  have fresh : squareClass.name ∉ p.classNames := by decide
  have notEntry : squareClass.name ≠ entry.className := by decide
  have unmentioned : ∀ n ∈ p.tree.visited fun _ => true, squareClass.name ∉ n.mentions := by
    decide +kernel
  have unshared : ∀ e ∈ squareClass.visits, e ∉ p.exprs := by decide +kernel
  obtain ⟨hdiagnostics, hnotes, -⟩ := unrelated_class_conservative 1 shapeClasses.1
    shapeClasses.2 squareClass entry fresh notEntry unmentioned unshared
  exact ⟨fresh, notEntry, unmentioned, unshared, hdiagnostics, by decide +kernel,
    by decide +kernel, fun e he => (hnotes e he).1⟩

end ClassCheck
