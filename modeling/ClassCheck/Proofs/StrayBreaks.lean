import ClassCheck.Proofs.PhaseOrder
import ClassCheck.Proofs.ReportSites
import ClassCheck.Proofs.RestoredScopes
import ClassCheck.Proofs.Traversal
import ClassCheck.Proofs.WellFormed

/-!
# Stray breaks

A break is reported exactly if no loop of its method stands around it. The loops that are kept track
of are those around the statement at hand, since every statement restores them; and nothing else is
ever reported as a stray break.
-/

namespace ClassCheck

structure Break where
  line : Int
  inLoop : Bool

mutual

/-- The breaks in a statement, in order, where `inLoop` says whether a loop stands around it. -/
def Stmt.breaks (inLoop : Bool) : Stmt → List Break
  | .breakLoop line => [⟨line, inLoop⟩]
  | .ifElse _ _ thenBranch elseBranch => thenBranch.breaks inLoop ++ elseBranch.breaks inLoop
  | .whileLoop _ _ body => body.breaks true
  | .forLoop _ _ _ _ body => body.breaks true
  | .block _ body => Stmt.breaksOfAll inLoop body
  | .absent | .decl .. | .expr .. | .ret .. => []

def Stmt.breaksOfAll (inLoop : Bool) : List Stmt → List Break
  | [] => []
  | s :: ss => s.breaks inLoop ++ Stmt.breaksOfAll inLoop ss

end

namespace Method

def breaks (m : Method) : List Break := Stmt.breaksOfAll false m.body

def strayBreaks (m : Method) : List Break := m.breaks.filter (!·.inLoop)

end Method

/-! ### Every break is listed -/

def Node.breakLine : Node → List Int
  | .stmt (.breakLoop line) => [line]
  | _ => []

theorem Expr.breakLines_trees (e : Expr) : Tree.collect Node.breakLine e.trees = [] := by
  rw [collect_trees]
  simp [Node.breakLine]

namespace Stmt

theorem breakLines_treesOfAll {ss : List Stmt} {inLoop : Bool}
    (h : ∀ s ∈ ss, Tree.collect Node.breakLine s.trees = (s.breaks inLoop).map Break.line) :
    Tree.collect Node.breakLine (treesOfAll ss) = (breaksOfAll inLoop ss).map Break.line := by
  induction ss with
  | nil => rfl
  | cons s ss ih =>
    rw [treesOfAll, breaksOfAll, Tree.collect_append, h s List.mem_cons_self,
      ih fun x hx => h x (List.mem_cons_of_mem s hx), List.map_append]

theorem breakLines_trees (s : Stmt) (inLoop : Bool) :
    Tree.collect Node.breakLine s.trees = (s.breaks inLoop).map Break.line := by
  induction s generalizing inLoop with
  | absent => rfl
  | breakLoop line => rfl
  | decl _ _ _ init => simp [trees, breaks, Node.breakLine, init.breakLines_trees]
  | expr _ value => simp [trees, breaks, Node.breakLine, value.breakLines_trees]
  | ret _ value => simp [trees, breaks, Node.breakLine, value.breakLines_trees]
  | ifElse _ condition _ _ iht ihe =>
    simp [trees, breaks, Node.breakLine, condition.breakLines_trees, iht inLoop, ihe inLoop]
  | whileLoop _ condition _ ih =>
    simp [trees, breaks, Node.breakLine, condition.breakLines_trees, ih true]
  | forLoop _ init condition update _ ih =>
    simp [trees, breaks, Node.breakLine, init.breakLines_trees, condition.breakLines_trees,
      update.breakLines_trees, ih true]
  | block _ body ih =>
    simp [trees, breaks, Node.breakLine, breakLines_treesOfAll fun s hs => ih s hs inLoop]

end Stmt

theorem Method.breakLines_tree (m : Method) :
    (m.tree.visited fun _ => true).flatMap Node.breakLine = m.breaks.map Break.line := by
  have hformals : Tree.collect Node.breakLine (m.formals.map Formal.tree) = [] := by
    rw [Tree.collect_map]
    simp [Formal.tree, Node.breakLine]
  have hbody := Stmt.breakLines_treesOfAll fun s (_ : s ∈ m.body) => s.breakLines_trees false
  rw [Tree.collect_visited, Method.tree, Tree.collect_node, Tree.collect_append, hformals, hbody]
  rfl

/-! ### Expressions report no breaks -/

abbrev Reported.BreakFree {α : Type} (j : Judged α) : Prop :=
  j.Only fun r => r.problem.kind ≠ .invalidBreak

theorem Context.permits_breakFree (cx : Context) (line : Int) :
    cx.Permits (fun r => r.problem.kind ≠ .invalidBreak) line := by
  intro problem hother
  cases problem with
  | breakOutsideLoop => exact absurd rfl hother
  | _ => nofun

theorem Context.infer_breakFree {cx : Context} {vars : Vars} (e : Expr) (n : Notes) :
    (cx.infer vars e n).BreakFree :=
  (Pinned.infer (fun node _ => node.on_any.mono fun line _ => cx.permits_breakFree line) vars n).1

/-! ### Statements report their stray breaks -/

def breakPlaces (rs : List (Located TypingProblem)) : List (String × Int) :=
  (rs.filter fun r => r.problem.kind = .invalidBreak).map fun r => (r.file, r.line)

theorem breakPlaces_append (rs rs' : List (Located TypingProblem)) :
    breakPlaces (rs ++ rs') = breakPlaces rs ++ breakPlaces rs' := by
  rw [breakPlaces, List.filter_append, List.map_append, breakPlaces, breakPlaces]

theorem Reported.BreakFree.places {α : Type} {j : Judged α} (h : j.BreakFree) :
    breakPlaces j.reports = [] := by
  rw [breakPlaces, List.filter_eq_nil_iff.mpr fun r hr => by simpa using h r hr, List.map_nil]

def Break.strayPlaces (file : String) (bs : List Break) : List (String × Int) :=
  (bs.filter (!·.inLoop)).map fun b => (file, b.line)

theorem Break.strayPlaces_append (file : String) (bs bs' : List Break) :
    strayPlaces file (bs ++ bs') = strayPlaces file bs ++ strayPlaces file bs' := by
  rw [strayPlaces, List.filter_append, List.map_append, strayPlaces, strayPlaces]

/-- The step reports the stray ones among the breaks that it meets, which it meets inside a loop if
it starts with one. -/
def ReportsStray (file : String) {α : Type} (m : Body α) (bs : Bool → List Break) : Prop :=
  ∀ s : BodyState,
    breakPlaces (m s).reports = Break.strayPlaces file (bs (!s.loops.isEmpty))

namespace ReportsStray

variable {file : String} {α β : Type}

theorem bind {m : Body α} {f : α → Body β} {bs bs' : Bool → List Break}
    (hm : ReportsStray file m bs) (hrestores : Restores m)
    (hf : ∀ a, ReportsStray file (f a) bs') :
    ReportsStray file (m >>= f) fun inLoop => bs inLoop ++ bs' inLoop := by
  intro s
  rw [Step.reports_bind, breakPlaces_append, hm s, hf, (hrestores s).loops,
    Break.strayPlaces_append]

theorem of_breakFree {m : Body α} (h : ∀ s, (m s).BreakFree) :
    ReportsStray file m fun _ => [] :=
  fun s => (h s).places

theorem lift {j : Judged α} (h : j.BreakFree) :
    ReportsStray file (liftM j : Body α) fun _ => [] :=
  of_breakFree fun s r hr => h r (by rwa [Step.reports_lift] at hr)

theorem loop {m : Body Unit} {bs : Bool → List Break} (hm : ReportsStray file m bs) (line : Int) :
    ReportsStray file (Body.inLoop line m) fun _ => bs true := by
  intro s
  have hinside := hm ⟨s.notes, s.locals, line :: s.loops⟩
  exact (congrArg breakPlaces (List.append_nil _)).trans hinside

theorem scope {m : Body Unit} {bs : Bool → List Break} (hm : ReportsStray file m bs) :
    ReportsStray file (Body.inScope m) bs := by
  intro s
  have hinside := hm ⟨s.notes, s.locals.enter, s.loops⟩
  exact (congrArg breakPlaces (List.append_nil _)).trans hinside

section Bodies

variable (cx : MethodContext)

theorem value (e : Expr) : ReportsStray file (cx.value e) fun _ => [] := by
  refine of_breakFree fun s => Reported.only_bind.mpr ⟨?_, Reported.only_pure _⟩
  exact Context.infer_breakFree e s.notes

theorem condition (place : Conditional) (e : Expr) :
    ReportsStray file (cx.condition place e) fun _ => [] :=
  (value cx e).bind ((Restores.met cx).value e) fun _ =>
    lift (Context.condition_only (.inr (cx.permits_breakFree e.line)) place)

theorem declare (line : Int) (kind : SymbolKind) (name : String) (type : Ty) :
    ReportsStray file (cx.declare line kind name type) fun _ => [] :=
  of_breakFree fun s => (Pinned.declare (cx.permits_breakFree line) kind name type s).1

variable {cx} in
theorem checkAll {ss : List Stmt}
    (h : ∀ s ∈ ss, ReportsStray cx.self.decl.file (cx.check s) fun inLoop => s.breaks inLoop) :
    ReportsStray cx.self.decl.file (cx.checkAll ss) fun inLoop => Stmt.breaksOfAll inLoop ss := by
  induction ss with
  | nil =>
    rw [MethodContext.checkAll]
    exact of_breakFree fun _ => Reported.only_pure _
  | cons s ss ih =>
    rw [MethodContext.checkAll]
    have hrest := ih fun x hx => h x (List.mem_cons_of_mem s hx)
    exact (h s List.mem_cons_self).bind ((Restores.met cx).check s) fun _ => hrest

theorem check (s : Stmt) :
    ReportsStray cx.self.decl.file (cx.check s) fun inLoop => s.breaks inLoop := by
  induction s with
  | absent =>
    rw [MethodContext.check]
    exact of_breakFree fun _ => Reported.only_pure _
  | decl line name type init =>
    rw [MethodContext.check]
    exact (value cx init).bind ((Restores.met cx).value init) fun t =>
      (declare cx line _ name type).bind (Restores.declare cx line _ name type) fun bound =>
        lift (Context.initialized_only (cx.permits_breakFree line) name bound t)
  | expr line e =>
    rw [MethodContext.check]
    exact (value cx e).bind ((Restores.met cx).value e) fun _ =>
      lift (Context.require_only (.inr (cx.permits_breakFree line)) _ (by simp))
  | ifElse line c thenBranch elseBranch iht ihe =>
    rw [MethodContext.check]
    exact (condition cx _ c).bind ((Restores.met cx).condition _ c) fun _ =>
      iht.bind ((Restores.met cx).check thenBranch) fun _ => ihe
  | whileLoop line c body ih =>
    rw [MethodContext.check]
    have hinside := (condition cx .whileLoop c).bind ((Restores.met cx).condition _ c) fun _ => ih
    simpa only [Body.inLoop, bind_assoc, List.nil_append, Stmt.breaks] using hinside.loop line
  | forLoop line init c update body ih =>
    rw [MethodContext.check]
    have hinside := (value cx init).bind ((Restores.met cx).value init) fun _ =>
      (condition cx .forLoop c).bind ((Restores.met cx).condition _ c) fun _ =>
        (value cx update).bind ((Restores.met cx).value update) fun _ => ih
    simpa only [Body.inLoop, bind_assoc, List.nil_append, Stmt.breaks] using hinside.loop line
  | breakLoop line =>
    rw [MethodContext.check]
    intro s
    rw [Step.reports_bind, Step.run_get, List.nil_append, Step.reports_lift]
    cases s.loops.isEmpty <;> rfl
  | block line body ih =>
    rw [MethodContext.check]
    exact (checkAll ih).scope
  | ret line e =>
    rw [MethodContext.check]
    split
    · exact lift (Context.require_only (.inr (cx.permits_breakFree line)) _ (by simp))
    · exact (value cx e).bind ((Restores.met cx).value e) fun t =>
        lift (MethodContext.returnedValue_only (cx.permits_breakFree line) t)

theorem declareFormals (fs : List Formal) :
    ReportsStray file (cx.declareFormals fs) fun _ => [] := by
  induction fs with
  | nil =>
    rw [MethodContext.declareFormals]
    exact of_breakFree fun _ => Reported.only_pure _
  | cons f fs ih =>
    rw [MethodContext.declareFormals]
    exact (declare cx f.line _ f.name f.type).bind (Restores.declare cx f.line _ f.name f.type)
      fun _ => ih

end Bodies

end ReportsStray

/-! ### Methods, classes and programs -/

namespace Context

variable (cx : Context)

theorem checkedMethod_breakPlaces (m : Method) (n : Notes) :
    breakPlaces (cx.checkedMethod m n).reports =
      Break.strayPlaces cx.self.decl.file m.breaks := by
  set mcx := cx.ofMethod m
  have hformals : ReportsStray mcx.self.decl.file (mcx.declareFormals m.formals) fun _ => [] :=
    .declareFormals mcx m.formals
  have hbody := hformals.bind ((Restores.met mcx).declareFormals m.formals) fun _ =>
    ReportsStray.checkAll fun s (_ : s ∈ m.body) => ReportsStray.check mcx s
  -- the body starts outside of all loops
  have hrun := hbody ⟨n, ScopeStack.empty.enter, []⟩
  exact (congrArg breakPlaces (List.append_nil _)).trans hrun

theorem checkedField_breakPlaces (f : Field) (n : Notes) :
    breakPlaces (cx.checkedField f n).reports = [] := by
  have hinit : ∀ t, (cx.fieldInitialized f t).BreakFree :=
    fieldInitialized_only (cx.permits_breakFree f.line)
  rw [checkedField, Step.reports_bind, Step.reports_lift, breakPlaces_append,
    (infer_breakFree f.init n).places, (hinit _).places]
  rfl

theorem checkedMembers_breakPlaces (ms : List (Option Member)) (n : Notes) :
    breakPlaces (cx.checkedMembers ms n).reports =
      ((ms.filterMap id).filterMap Member.method?).flatMap fun m =>
        Break.strayPlaces cx.self.decl.file m.breaks := by
  induction ms generalizing n with
  | nil => rfl
  | cons o ms ih =>
    cases o with
    | none => exact ih n
    | some member =>
      rw [checkedMembers, Step.reports_bind, breakPlaces_append, ih]
      cases member with
      | field f =>
        rw [checkedMember, checkedField_breakPlaces]
        rfl
      | method m =>
        rw [checkedMember, checkedMethod_breakPlaces]
        rfl

end Context

theorem ClassTable.checkedClasses_breakPlaces (t : ClassTable) (cs : List ClassInfo) (n : Notes) :
    breakPlaces (t.checkedClasses cs n).reports =
      cs.flatMap fun c => c.decl.methods.flatMap fun m =>
        Break.strayPlaces c.decl.file m.breaks := by
  induction cs generalizing n with
  | nil => rfl
  | cons c cs ih =>
    rw [checkedClasses, Step.reports_bind, breakPlaces_append, ih,
      Context.checkedMembers_breakPlaces]
    rfl

theorem breaks_analyze (program : Option Program) (entry : EntryPoint) :
    ((analyze program entry).diagnostics.filter (·.kind = .invalidBreak)).map
        (fun d => (d.file, d.line)) =
      breakPlaces (Hierarchy.ofProgram program).typing.reports := by
  have hnone : ∀ {i : Nat} {ds : List Diagnostic}, Diagnostic.InPhase i ds → i ≠ 4 →
      ds.filter (·.kind = .invalidBreak) = [] := by
    intro i ds hds hi
    rw [List.filter_eq_nil_iff]
    intro d hd hkind
    have hphase := hds d hd 4 (by rw [of_decide_eq_true hkind]; rfl)
    exact hi hphase.symm
  have hregistry := hnone (Registry.ofProgram_inPhase program) (by omega)
  have hlinks := hnone (Hierarchy.ofRegistry_inPhase (Registry.ofProgram program).value) (by omega)
  have hmembers := hnone (MemberProblem.inPhase (Reported.forEach
    (Hierarchy.ofProgram program).order (Hierarchy.ofProgram program).members).reports) (by omega)
  have hentry := hnone (EntryProblem.inPhase
    (entry.problems (.ofHierarchy (Hierarchy.ofProgram program)))) (by omega)
  rw [diagnostics_analyze, structuralDiagnostics]
  simp only [List.filter_append]
  rw [hregistry, hlinks, Reported.diagnostics, hmembers, hentry, Reported.diagnostics,
    List.filter_map]
  exact List.map_map

/-- The stray breaks that are reported are, class by class and method by method, exactly the breaks
that no loop of their method stands around, in the order they are written. The classes are those of
the program that were registered, each once. -/
theorem stray_breaks_exact (program : Option Program) (entry : EntryPoint) :
    let a := analyze program entry
    ((a.diagnostics.filter (·.kind = .invalidBreak)).map (fun d => (d.file, d.line)) =
      (a.order.filter (!·.isBuiltIn)).flatMap fun c => c.decl.methods.flatMap fun m =>
        m.strayBreaks.map fun b => (c.decl.file, b.line)) ∧
    (∀ m : Method,
      m.breaks.map Break.line = (m.tree.visited fun _ => true).flatMap Node.breakLine) ∧
    (a.order.map (·.name)).Nodup ∧
    ∀ d, (∃ c ∈ a.order.filter (!·.isBuiltIn), c.decl = d) ↔
      FirstDeclared ((program.map (·.classes)).getD []) d ∧ d.name ∉ Registry.builtIn.names := by
  intro a
  refine ⟨?_, fun m => m.breakLines_tree.symm, ?_, fun d => mem_analyze_users⟩
  · rw [breaks_analyze, ← analyze_typing program entry]
    exact a.table.checkedClasses_breakPlaces _ _
  · have linked := Hierarchy.ofProgram_linked program
    rw [order_analyze, List.map_map]
    exact (linked.order_perm.map _).nodup_iff.mpr linked.names_nodup

end ClassCheck
