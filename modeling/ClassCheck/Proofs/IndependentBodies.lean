import ClassCheck.Proofs.BodyEdits
import ClassCheck.Proofs.BreadthFirst
import ClassCheck.Proofs.Confinement
import ClassCheck.Proofs.Traversal

/-!
# Method bodies are independent

Of two programs that differ in one method body, the analyses differ in what is reported on that body
and noted inside it. The check of the method is a step between two others that the body has no part
in, and it leaves them nothing but notes about its own expressions.
-/

namespace ClassCheck

/-- Two steps in the same surroundings: they differ in what they report themselves and in the notes
about their own expressions. -/
theorem Confined.exchange {first middle middle' last : Check Unit} {es es' rest : List Expr}
    (hfirst : Check.Confined first rest) (hmiddle : Check.Confined middle es)
    (hmiddle' : Check.Confined middle' es') (hlast : Check.Confined last rest)
    (apart : es.Disjoint rest) (apart' : es'.Disjoint rest) (n : Notes) :
    let run := (first >>= fun _ => middle >>= fun _ => last) n
    let run' := (first >>= fun _ => middle' >>= fun _ => last) n
    (∃ before after, run.reports = before ++ (middle n).reports ++ after ∧
      run'.reports = before ++ (middle' n).reports ++ after) ∧
    ∀ x, x ∉ es → x ∉ es' → run.value.2.entry x = run'.value.2.entry x := by
  intro run run'
  set k := (first n).value.2 with hk
  have hreports : (middle k).reports = (middle n).reports :=
    (hmiddle.agree (hfirst.agree_after (List.disjoint_symm apart) n)).1
  have hreports' : (middle' k).reports = (middle' n).reports :=
    (hmiddle'.agree (hfirst.agree_after (List.disjoint_symm apart') n)).1
  -- Either step leaves the last one the notes it found.
  have hagree : (middle k).value.2.AgreeOn rest (middle' k).value.2 := by
    intro x hx
    rw [hmiddle.agree_after apart k x hx, hmiddle'.agree_after apart' k x hx]
  obtain ⟨hlastReports, hlastNotes⟩ := hlast.agree hagree
  refine ⟨⟨(first n).reports, (last (middle k).value.2).reports, ?_, ?_⟩, ?_⟩
  · rw [← hreports, List.append_assoc]
    rfl
  · rw [← hreports', List.append_assoc, hlastReports]
    rfl
  · intro x hx hx'
    by_cases hrest : x ∈ rest
    · exact hlastNotes x hrest
    · have hout : ∀ j : Notes, (last j).value.2.entry x = j.entry x :=
        fun j => hlast.frame j x hrest
      have hbody : (middle k).value.2.entry x = k.entry x := hmiddle.frame k x hx
      have hbody' : (middle' k).value.2.entry x = k.entry x := hmiddle'.frame k x hx'
      change (last (middle k).value.2).value.2.entry x = (last (middle' k).value.2).value.2.entry x
      rw [hout, hout, hbody, hbody']

theorem Context.checkedMembers_append (cx : Context) (ms ms' : List (Option Member)) :
    cx.checkedMembers (ms ++ ms') = cx.checkedMembers ms >>= fun _ => cx.checkedMembers ms' := by
  induction ms with
  | nil => rw [List.nil_append, checkedMembers, pure_bind]
  | cons o ms ih =>
    rw [List.cons_append]
    cases o with
    | none => rw [checkedMembers, checkedMembers, ih]
    | some member => rw [checkedMembers, checkedMembers, ih, bind_assoc]

namespace Hierarchy

def checkedNodes (h : Hierarchy) (cs : List ClassNode) : Check Unit :=
  (ClassTable.ofHierarchy h).checkedClasses (cs.map h.classInfo)

theorem checkedNodes_cons (h : Hierarchy) (c : ClassNode) (cs : List ClassNode) :
    h.checkedNodes (c :: cs) = h.checkedNode c >>= fun _ => h.checkedNodes cs := by
  rw [checkedNodes, List.map_cons, ClassTable.checkedClasses]
  rfl

theorem checkedNodes_append (h : Hierarchy) (cs ds : List ClassNode) :
    h.checkedNodes (cs ++ ds) = h.checkedNodes cs >>= fun _ => h.checkedNodes ds := by
  induction cs with
  | nil =>
    have hnil : h.checkedNodes [] = pure () := by
      rw [checkedNodes, List.map_nil, ClassTable.checkedClasses]
    rw [List.nil_append, hnil, pure_bind]
  | cons c cs ih => rw [List.cons_append, checkedNodes_cons, checkedNodes_cons, ih, bind_assoc]

theorem Mirrors.checkedNodes {g : BodyEdit} {h h' : Hierarchy} (mirrors : h.Mirrors g h')
    {cs : List ClassNode} (hcs : ∀ c ∈ cs, g.node c = c) :
    h'.checkedNodes cs = h.checkedNodes cs := by
  induction cs with
  | nil => rfl
  | cons c cs ih =>
    rw [checkedNodes_cons, checkedNodes_cons, mirrors.checkedNode (hcs c List.mem_cons_self),
      ih fun d hd => hcs d (List.mem_cons_of_mem c hd)]

theorem checkedNodes_confined (h : Hierarchy) (cs : List ClassNode) :
    Check.Confined (h.checkedNodes cs) (cs.flatMap fun c => c.decl.visits) := by
  have hclasses := Confined.checkedClasses (.ofHierarchy h) (cs.map h.classInfo)
  rwa [List.flatMap_map] at hclasses

end Hierarchy

/-- A program with one method body left open. The members of `owner` come before the method. -/
structure BodySlot where
  line : Int
  before : List (Option ClassDecl)
  owner : ClassDecl
  method : Method
  later : List (Option Member)
  after : List (Option ClassDecl)

namespace BodySlot

def filled (s : BodySlot) (body : List Stmt) : Method := { s.method with body := body }

def decl (s : BodySlot) (body : List Stmt) : ClassDecl :=
  { s.owner with members := s.owner.members ++ some (.method (s.filled body)) :: s.later }

def program (s : BodySlot) (body : List Stmt) : Program :=
  ⟨s.line, s.before ++ some (s.decl body) :: s.after⟩

def Taken (s : BodySlot) : Prop :=
  s.owner.name ∉ Registry.builtIn.names ∧ ∀ d, some d ∈ s.before → d.name ≠ s.owner.name

/-- What the check of the method reports; nothing if its class is not taken in. -/
def Reports (s : BodySlot) (a : Analysis) (body : List Stmt) (reports : List Diagnostic) : Prop :=
  (s.Taken → ∃ c, a.class? s.owner.name = some c ∧ c.decl = s.decl body ∧
    reports = (Context.checkedMethod ⟨a.table, c⟩ (s.filled body) Notes.empty).diagnostics) ∧
  (¬ s.Taken → reports = [])

variable {s : BodySlot}

theorem outline_decl (body body' : List Stmt) : (s.decl body).outline = (s.decl body').outline := by
  simp [decl, ClassDecl.outline, Member.outline, filled]

theorem program_exprs :
    (s.program []).exprs =
      (s.before.filterMap id).flatMap ClassDecl.visits ++
        ((s.owner.members.filterMap id).flatMap Member.visits ++
          (s.later.filterMap id).flatMap Member.visits) ++
        (s.after.filterMap id).flatMap ClassDecl.visits := by
  simp [Program.exprs_eq, program, decl, ClassDecl.visits_eq, filled, Member.visits_method]

theorem visits_subset {d : ClassDecl} (hd : some d ∈ s.before ++ s.after) :
    d.visits ⊆ (s.program []).exprs := by
  intro x hx
  rw [program_exprs]
  rcases List.mem_append.mp hd with hd | hd
  · exact List.mem_append_left _ (List.mem_append_left _
      (List.mem_flatMap.mpr ⟨d, List.mem_filterMap.mpr ⟨some d, hd, rfl⟩, hx⟩))
  · exact List.mem_append_right _
      (List.mem_flatMap.mpr ⟨d, List.mem_filterMap.mpr ⟨some d, hd, rfl⟩, hx⟩)

theorem owner_subset :
    (s.owner.members.filterMap id).flatMap Member.visits ⊆ (s.program []).exprs := by
  intro x hx
  rw [program_exprs]
  exact List.mem_append_left _ (List.mem_append_right _ (List.mem_append_left _ hx))

theorem later_subset :
    (s.later.filterMap id).flatMap Member.visits ⊆ (s.program []).exprs := by
  intro x hx
  rw [program_exprs]
  exact List.mem_append_left _ (List.mem_append_right _ (List.mem_append_right _ hx))

theorem taken_iff :
    s.Taken ↔ (Registry.builtIn.register s.before).value.find? s.owner.name = none := by
  rw [Registry.find?_eq_none_iff, Registry.mem_register_names, Taken]
  simp

theorem ofProgram_eq (body : List Stmt) :
    Registry.ofProgram (some (s.program body)) =
      Registry.builtIn.register s.before >>= fun r => r.register (some (s.decl body) :: s.after) :=
  Registry.register_append _ _ _

theorem ofProgram_of_not_taken (h : ¬ s.Taken) (body body' : List Stmt) :
    Registry.ofProgram (some (s.program body)) = Registry.ofProgram (some (s.program body')) := by
  obtain ⟨old, hold⟩ := Option.ne_none_iff_exists'.mp (taken_iff.not.mp h)
  apply Reported.ext
  · rw [ofProgram_eq, ofProgram_eq, Reported.value_bind, Reported.value_bind,
      Registry.register_old (d := s.decl body) hold,
      Registry.register_old (d := s.decl body') hold]
    rfl
  · rw [ofProgram_eq, ofProgram_eq, Reported.reports_bind, Reported.reports_bind,
      Registry.register_old (d := s.decl body) hold,
      Registry.register_old (d := s.decl body') hold]
    rfl

section Edit

variable (taken : s.Taken) (body body' : List Stmt)
include taken

theorem ne_builtIn {c : Registered} (hc : c ∈ Registry.builtIn.classes) :
    c.decl ≠ s.decl body :=
  fun h => taken.1 (List.mem_map.mpr ⟨c, hc, (congrArg ClassDecl.name h :)⟩)

open Classical in
noncomputable def edit : BodyEdit where
  apply d := if d = s.decl body then s.decl body' else d
  outline := by
    intro d
    split_ifs with h
    · rw [h, outline_decl]
    · rfl
  root := if_neg (ne_builtIn taken body (Registry.root_mem _))

theorem edit_decl : (edit taken body body').apply (s.decl body) = s.decl body' := if_pos rfl

theorem edit_of_ne {d : ClassDecl} (hd : d ≠ s.decl body) :
    (edit taken body body').apply d = d := if_neg hd

theorem edit_of_name {d : ClassDecl} (hd : d.name ≠ s.owner.name) :
    (edit taken body body').apply d = d :=
  edit_of_ne taken body body' fun h => hd (congrArg ClassDecl.name h :)

theorem node_edit_of_name {c : ClassNode} (hc : c.name ≠ s.owner.name) :
    (edit taken body body').node c = c := by
  rw [BodyEdit.node, edit_of_name taken body body' hc]

theorem ofProgram_edited :
    let r := Registry.ofProgram (some (s.program body))
    let r' := Registry.ofProgram (some (s.program body'))
    r.value.Edited (edit taken body body') r'.value ∧ r'.reports = r.reports := by
  intro r r'
  have hbuiltIn : Registry.builtIn.Edited (edit taken body body') Registry.builtIn := by
    rw [Registry.Edited, List.map_congr_left (g := id), List.map_id]
    intro c hc
    have hne := ne_builtIn taken body (Registry.others_subset hc)
    rw [BodyEdit.registered, edit_of_ne taken body body' hne]
    rfl
  obtain ⟨hbefore, -⟩ := hbuiltIn.register fun d hd _ =>
    edit_of_name taken body body' (taken.2 d hd)
  have hnew := taken_iff.mp taken
  -- A later declaration of the name is refused, so the edit leaves alone all that are taken in.
  obtain ⟨hvalue, hreports⟩ := (hbefore.add (edit_decl taken body body')).register
    fun d (_ : some d ∈ s.after) hd => edit_of_name taken body body' fun hname => hd (by
      rw [Registry.names_add, hname]
      exact List.mem_append_right _ List.mem_cons_self)
  constructor
  · simp only [r, r', ofProgram_eq, Reported.value_bind]
    rw [Registry.register_new (d := s.decl body) hnew,
      Registry.register_new (d := s.decl body') hnew]
    exact hvalue
  · simp only [r, r', ofProgram_eq, Reported.reports_bind]
    rw [Registry.register_new (d := s.decl body) hnew,
      Registry.register_new (d := s.decl body') hnew, hreports]

end Edit

/-- The class of the slot stands between `first` and `last` among the classes that are typed. -/
structure Placed (s : BodySlot) (body : List Stmt) (h : Hierarchy) (first : List ClassNode)
    (c : ClassNode) (last : List ClassNode) : Prop where
  order : h.order.filter (!·.isBuiltIn) = first ++ c :: last
  decl : c.decl = s.decl body
  find : h.find? s.owner.name = some c
  others : ∀ d ∈ first ++ last, d.name ≠ s.owner.name ∧ some d.decl ∈ s.before ++ s.after

theorem exists_placed (taken : s.Taken) (body : List Stmt) :
    ∃ first c last,
      s.Placed body (Hierarchy.ofProgram (some (s.program body))) first c last := by
  set h := Hierarchy.ofProgram (some (s.program body))
  have linked : h.Linked := Hierarchy.ofProgram_linked _
  have hregistered : ∃ r ∈ (Registry.ofProgram (some (s.program body))).value.classes,
      r.isBuiltIn = false ∧ r.decl = s.decl body :=
    Registry.mem_ofProgram_user.mpr ⟨⟨s.before, s.after, rfl, taken.2⟩, taken.1⟩
  obtain ⟨r, hr, huser, hdecl⟩ := hregistered
  rw [← Hierarchy.ofRegistry_registered] at hr
  obtain ⟨c, hc, rfl⟩ := List.mem_map.mp hr
  have hname : c.name = s.owner.name := (congrArg ClassDecl.name hdecl :)
  have hin : c ∈ h.order.filter (!·.isBuiltIn) :=
    List.mem_filter.mpr ⟨linked.mem_order.mpr hc, by simpa using huser⟩
  obtain ⟨first, last, hsplit⟩ := List.append_of_mem hin
  have hnodup := linked.order_nodup.filter (!·.isBuiltIn)
  rw [hsplit] at hnodup
  refine ⟨first, c, last, hsplit, hdecl, linked.find?_eq_some_iff.mpr ⟨hc, hname⟩, ?_⟩
  intro d hd
  -- The order has no class twice, so names tell the others from the class of the slot.
  have hcd : c ≠ d := by
    rintro rfl
    exact (List.nodup_middle.mp hnodup).notMem hd
  have htyped : d ∈ h.order.filter (!·.isBuiltIn) := by
    rw [hsplit]
    exact List.perm_middle.symm.subset (List.mem_cons_of_mem c hd)
  obtain ⟨hdorder, hduser⟩ := List.mem_filter.mp htyped
  have hdin := linked.mem_order.mp hdorder
  have hne : d.name ≠ s.owner.name :=
    fun h => hcd (linked.eq_of_name hc hdin (hname.trans h.symm))
  refine ⟨hne, ?_⟩
  have hfirst := (Registry.mem_ofProgram_user.mp
    ⟨d.toRegistered, Hierarchy.ofRegistry_mem_registered hdin, by simpa using hduser, rfl⟩).1
  have hmem : some d.decl ∈ s.before ++ some (s.decl body) :: s.after := hfirst.mem
  rcases List.mem_cons.mp (List.perm_middle.subset hmem) with h | h
  · exact absurd (congrArg ClassDecl.name (Option.some.inj h)) hne
  · exact h

def lead (s : BodySlot) (h : Hierarchy) (first : List ClassNode) (cx : Context) : Check Unit := do
  h.checkedNodes first
  cx.checkedMembers s.owner.members

def trail (s : BodySlot) (h : Hierarchy) (last : List ClassNode) (cx : Context) : Check Unit := do
  cx.checkedMembers s.later
  h.checkedNodes last

namespace Placed

variable {body body' : List Stmt} {h : Hierarchy} {first last : List ClassNode} {c : ClassNode}
  (placed : s.Placed body h first c last)
include placed

theorem typing :
    h.typing = (s.lead h first (h.context c) >>= fun _ =>
      (h.context c).checkedMethod (s.filled body) >>= fun _ =>
      s.trail h last (h.context c)) Notes.empty := by
  have hclass : h.checkedNode c = (h.context c).checkedMembers s.owner.members >>= fun _ =>
      (h.context c).checkedMethod (s.filled body) >>= fun _ =>
      (h.context c).checkedMembers s.later := by
    rw [Hierarchy.checkedNode, placed.decl, BodySlot.decl, Context.checkedMembers_append,
      Context.checkedMembers, Context.checkedMember]
  change h.checkedNodes (h.order.filter (!·.isBuiltIn)) Notes.empty = _
  rw [placed.order, Hierarchy.checkedNodes_append, Hierarchy.checkedNodes_cons, hclass, lead, trail]
  simp only [bind_assoc]

theorem nodes_confined {cs : List ClassNode} (hcs : cs ⊆ first ++ last) :
    Check.Confined (h.checkedNodes cs) (s.program []).exprs := by
  refine (h.checkedNodes_confined cs).mono fun x hx => ?_
  obtain ⟨d, hd, hxd⟩ := List.mem_flatMap.mp hx
  exact visits_subset (placed.others d (hcs hd)).2 hxd

theorem lead_confined (cx : Context) :
    Check.Confined (s.lead h first cx) (s.program []).exprs :=
  ((placed.nodes_confined (List.subset_append_left _ _)).bind fun _ =>
    (Confined.checkedMembers cx s.owner.members).mono owner_subset).mono (by simp)

theorem trail_confined (cx : Context) :
    Check.Confined (s.trail h last cx) (s.program []).exprs :=
  (((Confined.checkedMembers cx s.later).mono later_subset).bind fun _ =>
    placed.nodes_confined (List.subset_append_right _ _)).mono (by simp)

theorem kept (taken : s.Taken) (body' : List Stmt) {cs : List ClassNode}
    (hcs : cs ⊆ first ++ last) : ∀ d ∈ cs, (edit taken body body').node d = d :=
  fun d hd => node_edit_of_name taken body body' (placed.others d (hcs hd)).1

section Edited

variable {h' : Hierarchy} {taken : s.Taken} (edited : h.Edited (edit taken body body') h')
include edited

theorem edited_placed : s.Placed body' h' first ((edit taken body body').node c) last where
  order := by
    have hfilter : (h.order.map (edit taken body body').node).filter (!·.isBuiltIn) =
        (h.order.filter (!·.isBuiltIn)).map (edit taken body body').node := List.filter_map
    have hfirst := placed.kept taken body' (List.subset_append_left first last)
    have hlast := placed.kept taken body' (List.subset_append_right first last)
    rw [edited.order, hfilter, placed.order, List.map_append, List.map_cons,
      List.map_congr_left hfirst, List.map_congr_left hlast, List.map_id', List.map_id']
  decl := by rw [BodyEdit.node, placed.decl, edit_decl]
  find := by rw [edited.mirrors.find, placed.find, Option.map_some]
  others := placed.others

theorem edited_typing :
    h'.typing = (s.lead h first (h.context c) >>= fun _ =>
      (h.context c).checkedMethod (s.filled body') >>= fun _ =>
      s.trail h last (h.context c)) Notes.empty := by
  have mirrors := edited.mirrors
  have same := mirrors.same c
  have hfirst := placed.kept taken body' (List.subset_append_left first last)
  have hlast := placed.kept taken body' (List.subset_append_right first last)
  rw [(placed.edited_placed edited).typing, lead, lead, trail, trail, mirrors.checkedNodes hfirst,
    mirrors.checkedNodes hlast, same.checkedMembers, same.checkedMembers, same.checkedMethod]

theorem typing_exchange
    (apart : (body.flatMap Stmt.visits).Disjoint (s.program []).exprs)
    (apart' : (body'.flatMap Stmt.visits).Disjoint (s.program []).exprs) :
    (∃ before after,
      h.typing.reports = before ++
        ((h.context c).checkedMethod (s.filled body) Notes.empty).reports ++ after ∧
      h'.typing.reports = before ++
        ((h'.context ((edit taken body body').node c)).checkedMethod
          (s.filled body') Notes.empty).reports ++ after) ∧
    ∀ x, x ∉ body.flatMap Stmt.visits → x ∉ body'.flatMap Stmt.visits →
      h.typing.value.2.entry x = h'.typing.value.2.entry x := by
  rw [placed.typing, placed.edited_typing edited, ← (edited.mirrors.same c).checkedMethod]
  exact Confined.exchange (placed.lead_confined _) (Confined.checkedMethod _ (s.filled body))
    (Confined.checkedMethod _ (s.filled body')) (placed.trail_confined _) apart apart' Notes.empty

end Edited

theorem reports (taken : s.Taken) {entry : EntryPoint}
    (hprogram : h = Hierarchy.ofProgram (some (s.program body))) :
    s.Reports (analyze (some (s.program body)) entry) body
      ((h.context c).checkedMethod (s.filled body) Notes.empty).diagnostics := by
  refine ⟨fun _ => ⟨h.classInfo c, ?_, placed.decl, ?_⟩, fun hno => absurd taken hno⟩
  · rw [Analysis.class?, table_analyze, ← hprogram, ClassTable.find?_ofHierarchy, placed.find,
      Option.map_some]
  · rw [table_analyze, ← hprogram]

end Placed

end BodySlot

/-- Exchanging one method body exchanges what its check reports, in place, and the notes inside the
body; links, order, tables and all other reports and notes stay. -/
theorem method_bodies_independent (s : BodySlot) (body body' : List Stmt) (entry : EntryPoint)
    (apart : ∀ e ∈ body.flatMap Stmt.visits, e ∉ (s.program []).exprs)
    (apart' : ∀ e ∈ body'.flatMap Stmt.visits, e ∉ (s.program []).exprs) :
    let a := analyze (some (s.program body)) entry
    let a' := analyze (some (s.program body')) entry
    (∃ before reports reports' after,
      a.diagnostics = before ++ reports ++ after ∧ a'.diagnostics = before ++ reports' ++ after ∧
      s.Reports a body reports ∧ s.Reports a' body' reports') ∧
    a'.order.map ClassInfo.outline = a.order.map ClassInfo.outline ∧
    a'.table.outline = a.table.outline ∧
    ∀ e, e ∉ body.flatMap Stmt.visits → e ∉ body'.flatMap Stmt.visits →
      a.typeOf? e = a'.typeOf? e ∧ a.isUpcast e = a'.isUpcast e := by
  intro a a'
  by_cases taken : s.Taken
  · obtain ⟨first, c, last, placed⟩ := BodySlot.exists_placed taken body
    obtain ⟨hregistered, hregistry⟩ := BodySlot.ofProgram_edited taken body body'
    obtain ⟨edited, hlinks⟩ := Hierarchy.ofRegistry_edited hregistered
    obtain ⟨⟨before, after, hreports, hreports'⟩, hnotes⟩ := placed.typing_exchange edited
      (fun x hx => apart x hx) (fun x hx => apart' x hx)
    have hstructural : structuralDiagnostics (some (s.program body')) entry =
        structuralDiagnostics (some (s.program body)) entry := by
      simp only [structuralDiagnostics, Reported.diagnostics, hregistry, hlinks,
        edited.members_reports, entry.problems_of_face (edited.mirrors.find?_face entry.className)]
    refine ⟨?_, ?_, ?_, ?_⟩
    · refine ⟨structuralDiagnostics (some (s.program body)) entry ++
        before.map Located.diagnostic, _, _, after.map Located.diagnostic, ?_, ?_,
        placed.reports taken rfl, (placed.edited_placed edited).reports taken rfl⟩
      · rw [diagnostics_analyze, Reported.diagnostics, hreports]
        simp only [List.map_append, List.append_assoc]
        rfl
      · rw [diagnostics_analyze, hstructural, Reported.diagnostics, hreports']
        simp only [List.map_append, List.append_assoc]
        rfl
    · rw [order_analyze, order_analyze, show (Hierarchy.ofProgram _).order = _ from edited.order]
      exact edited.map_outline _
    · rw [table_analyze, table_analyze]
      exact edited.table_outline
    · intro e he he'
      rw [Analysis.typeOf?, Analysis.typeOf?, Analysis.isUpcast, Analysis.isUpcast, notes_analyze,
        notes_analyze]
      have hentry := hnotes e he he'
      exact ⟨congrArg Prod.fst hentry, congrArg Prod.snd hentry⟩
  · have heq : a = a' := by
      simp only [a, a', analyze, BodySlot.ofProgram_of_not_taken taken body body']
    rw [heq]
    refine ⟨⟨a'.diagnostics, [], [], [], by simp, by simp, ?_, ?_⟩, rfl, rfl,
      fun _ _ _ => ⟨rfl, rfl⟩⟩
    · exact ⟨fun h => absurd h taken, fun _ => rfl⟩
    · exact ⟨fun h => absurd h taken, fun _ => rfl⟩

def counterSlot : BodySlot where
  line := 1
  before := [none]
  owner := ⟨"Counter.btm", 1, "Counter", "", [some (.field ⟨2, "n", .int, .int ⟨0, 2⟩ 0⟩)]⟩
  method := ⟨3, "next", .int, [], []⟩
  later := [some (.field ⟨6, "on", .boolean, .dispatch ⟨1, 6⟩ .absent "next" []⟩)]
  after := [
    some ⟨"Main.btm", 1, "Main", "Counter", [
      some (.method ⟨2, "main", .void, [], [
        .expr 3 (.assign ⟨2, 3⟩ "" "n" (.dispatch ⟨3, 3⟩ .absent "next" []))]⟩)]⟩]

theorem counterSlot_exchange :
    let body : List Stmt := [.ret 4 (.var ⟨4, 4⟩ .absent "n")]
    let body' : List Stmt := [.breakLoop 4, .ret 5 (.bool ⟨5, 5⟩ true)]
    let a := analyze (some (counterSlot.program body)) (.ofNames "" "")
    let a' := analyze (some (counterSlot.program body')) (.ofNames "" "")
    (∀ e ∈ body.flatMap Stmt.visits, e ∉ (counterSlot.program []).exprs) ∧
    (∀ e ∈ body'.flatMap Stmt.visits, e ∉ (counterSlot.program []).exprs) ∧
    a.diagnostics.length = 1 ∧ a'.diagnostics.length = 3 ∧
    ∃ before reports reports' after,
      a.diagnostics = before ++ reports ++ after ∧ a'.diagnostics = before ++ reports' ++ after ∧
      counterSlot.Reports a body reports ∧ counterSlot.Reports a' body' reports' := by
  intro body body' a a'
  have apart : ∀ e ∈ body.flatMap Stmt.visits, e ∉ (counterSlot.program []).exprs := by
    decide +kernel
  have apart' : ∀ e ∈ body'.flatMap Stmt.visits, e ∉ (counterSlot.program []).exprs := by
    decide +kernel
  exact ⟨apart, apart', by decide +kernel, by decide +kernel,
    (method_bodies_independent counterSlot body body' (.ofNames "" "") apart apart').1⟩

end ClassCheck
