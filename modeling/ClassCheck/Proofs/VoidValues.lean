import ClassCheck.Proofs.SpecialNames

/-!
# Where there is no value

A call of a method that returns nothing has no value, and no value is used: in an accepted program
such an expression stands where its value is dropped. The one way to name the type is a class of
that name, whose objects can then be mentioned before their own fields, and nowhere else.
-/

namespace ClassCheck

/-- The expressions right below a statement whose values it uses. -/
def Stmt.uses : Stmt → List Expr
  | .decl _ _ _ init => [init]
  | .ifElse _ condition _ _ => [condition]
  | .whileLoop _ condition _ => [condition]
  | .forLoop _ _ condition _ _ => [condition]
  | .ret _ value => [value]
  | .absent | .expr .. | .breakLoop .. | .block .. => []

/-- The expressions right below a statement whose values it drops. -/
def Stmt.drops : Stmt → List Expr
  | .expr _ value => [value]
  | .forLoop _ init _ update _ => [init, update]
  | _ => []

namespace Node

def outerUses : Node → List Expr
  | .field f => [f.init]
  | .stmt s => s.uses
  | _ => []

def uses : Node → List Expr
  | .expr e => e.parts
  | n => n.outerUses

def drops : Node → List Expr
  | .stmt s => s.drops
  | _ => []

end Node

/-! ### Every occurrence is used or dropped -/

/-- In how many places of the trees `e` is used or dropped. -/
def Tree.places (e : Expr) (ts : List (Tree Node)) : Nat :=
  (Tree.collect Node.uses ts).count e + (Tree.collect Node.drops ts).count e

namespace Tree

theorem places_append (e : Expr) (ts us : List (Tree Node)) :
    places e (ts ++ us) = places e ts + places e us := by
  simp only [places, collect_append, List.count_append]
  omega

theorem places_node (e : Expr) (item : Node) (children : List (Tree Node)) :
    places e [.node item children] =
      item.uses.count e + item.drops.count e + places e children := by
  simp only [places, collect_node, List.count_append]
  omega

/-- `e` occurs in the trees as often as it is used or dropped there. -/
def Balanced (e : Expr) (ts : List (Tree Node)) : Prop := (exprs ts).count e = places e ts

variable {e : Expr}

theorem Balanced.eq {ts : List (Tree Node)} (h : Balanced e ts) :
    (exprs ts).count e = places e ts := h

theorem Balanced.append {ts us : List (Tree Node)} (hts : Balanced e ts) (hus : Balanced e us) :
    Balanced e (ts ++ us) := by
  rw [Balanced, exprs_append, List.count_append, places_append, hts, hus]

theorem Balanced.node {item : Node} {children : List (Tree Node)} (hitem : item.expr? = none)
    (h : (exprs children).count e =
      item.uses.count e + item.drops.count e + places e children) :
    Balanced e [.node item children] := by
  rw [Balanced, exprs_node, places_node, hitem, ← h]
  rfl

end Tree

section Counting

variable {e : Expr} (he : e ≠ .absent)
include he

end Counting

/-! ### No rule takes an operand without a value -/

namespace Context

variable {cx : Context} {vars : Vars} {line : Int}

end Context

/-! ### No statement takes a value that is not there -/

theorem Expr.outerUses_trees (e : Expr) : Tree.collect Node.outerUses e.trees = [] := by
  rw [collect_trees]
  simp [Node.outerUses]

theorem Context.binding_quiet {cx : Context} {locals : ScopeStack Symbol} {line : Int}
    {kind : SymbolKind} {name : String} {type : Ty}
    (h : (cx.binding locals line kind name type).reports = []) :
    (cx.binding locals line kind name type).value = some ⟨name, kind, type⟩ ∧
      cx.table.knows type = true := by
  rw [binding] at h ⊢
  split_ifs at h ⊢ with _ _ hknown
  · cases h
  · cases h
  · exact ⟨rfl, hknown⟩
  · cases h

theorem MethodContext.declare_void {cx : MethodContext}
    (hnames : ∀ c ∈ cx.table.classes, c.name ≠ "<error>") (line : Int) (name : String) (type : Ty)
    (s : BodyState) :
    ((cx.declare line .localVariable name type >>= fun bound =>
      liftM (cx.initialized line name bound .void)) s).reports ≠ [] := by
  intro h
  rw [Step.reports_bind, Step.reports_lift, List.append_eq_nil_iff] at h
  simp only [declare, Step.reports_bind, Step.value_bind, Step.run_get, Step.reports_lift,
    Step.value_lift, List.append_eq_nil_iff] at h
  obtain ⟨⟨-, hbinding, -⟩, hinitialized⟩ := h
  obtain ⟨hbound, hknown⟩ := Context.binding_quiet hbinding
  rw [hbound] at hinitialized
  have hvoid : (cx.initialized line name (some ⟨name, .localVariable, type⟩) .void).reports = [] :=
    hinitialized
  rw [Context.initialized, if_neg (by simp [ClassTable.knows_not_error hnames hknown])] at hvoid
  cases hvoid

/-- The step `m`, whose state holds notes, only makes calls among the classes of `t`; and if it
reports nothing, it leaves no expression of `es` with the type of no value. -/
structure RefusesVoid {σ α : Type} (t : ClassTable) (notes : σ → Notes) (m : StateT σ Judged α)
    (es : List Expr) : Prop where
  advances : ∀ s, t.Reaches (notes s) →
    t.Reaches (notes (m s).value.2) ∧ (notes s).Kept (notes (m s).value.2)
  refuses : ∀ s k, t.Reaches (notes s) → (m s).reports = [] → (notes (m s).value.2).Kept k →
    ∀ e ∈ es, e ≠ .absent → k.typeOf? e ≠ some .void

namespace RefusesVoid

variable {σ α β : Type} {t : ClassTable} {notes : σ → Notes}

theorem of_traced {m : StateT σ Judged α} {log : σ → List Call} (hm : Traced t notes m log) :
    RefusesVoid t notes m [] where
  advances := fun s hs => hs.chained (hm.chained s)
  refuses := fun _ _ _ _ _ _ he => by cases he

theorem lift (j : Judged α) : RefusesVoid t notes (liftM j : StateT σ Judged α) [] :=
  of_traced (.lift j)

theorem bind {m : StateT σ Judged α} {f : α → StateT σ Judged β} {es fs : List Expr}
    (hm : RefusesVoid t notes m es) (hf : ∀ a, RefusesVoid t notes (f a) fs) :
    RefusesVoid t notes (m >>= f) (es ++ fs) where
  advances := by
    intro s hs
    obtain ⟨hreached, hkept⟩ := hm.advances s hs
    obtain ⟨hreached', hkept'⟩ := (hf _).advances _ hreached
    exact ⟨hreached', hkept.trans hkept'⟩
  refuses := by
    intro s k hs hquiet hk e he
    rw [Step.reports_bind, List.append_eq_nil_iff] at hquiet
    have hreached := (hm.advances s hs).1
    rcases List.mem_append.mp he with he | he
    · exact hm.refuses s k hs hquiet.1 (((hf _).advances _ hreached).2.trans hk) e he
    · exact (hf _).refuses _ k hreached hquiet.2 hk e he

theorem use {m : StateT σ Judged Ty} {log : σ → List Call} {f : Ty → StateT σ Judged β}
    {e : Expr} (hm : Traced t notes m log)
    (hanswers : ∀ s, t.Reaches (notes s) → (notes (m s).value.2).Answers e (m s).value.1)
    (hf : ∀ u, RefusesVoid t notes (f u) []) (hvoid : ∀ s, (f .void s).reports ≠ []) :
    RefusesVoid t notes (m >>= f) [e] where
  advances := ((of_traced hm).bind hf).advances
  refuses := by
    intro s k hs hquiet hk x hx hne htype
    obtain rfl := List.mem_singleton.mp hx
    rw [Step.reports_bind, List.append_eq_nil_iff] at hquiet
    have hreached := ((of_traced hm).advances s hs).1
    have hanswer := ((hanswers s hs).kept (((hf _).advances _ hreached).2.trans hk)).typeOf? hne
    rw [htype, Option.some.injEq] at hanswer
    rw [← hanswer] at hquiet
    exact hvoid _ hquiet.2

section Bodies

variable {cx : MethodContext}

theorem value {f : Ty → Body β} {e : Expr}
    (hf : ∀ u, RefusesVoid cx.table BodyState.notes (f u) [])
    (hvoid : ∀ s, (f .void s).reports ≠ []) :
    RefusesVoid cx.table BodyState.notes (cx.value e >>= f) [e] :=
  use (.value cx e) (fun _ hs => (Context.settles _ hs.coherent e).answers) hf hvoid

theorem condition (place : Conditional) (e : Expr) :
    RefusesVoid cx.table BodyState.notes (cx.condition place e) [e] :=
  value (fun _ => lift _) fun _ => List.cons_ne_nil _ _

theorem checkAll {ss : List Stmt} (h : ∀ s ∈ ss, RefusesVoid cx.table BodyState.notes (cx.check s)
      (Tree.collect Node.outerUses s.trees)) :
    RefusesVoid cx.table BodyState.notes (cx.checkAll ss)
      (Tree.collect Node.outerUses (Stmt.treesOfAll ss)) := by
  induction ss with
  | nil =>
    rw [MethodContext.checkAll]
    exact of_traced (.pure ())
  | cons s ss ih =>
    rw [MethodContext.checkAll, Stmt.treesOfAll, Tree.collect_append]
    exact (h s List.mem_cons_self).bind fun _ => ih fun x hx => h x (List.mem_cons_of_mem s hx)

variable (cx) in
theorem check (hnames : ∀ c ∈ cx.table.classes, c.name ≠ "<error>") (s : Stmt) :
    RefusesVoid cx.table BodyState.notes (cx.check s) (Tree.collect Node.outerUses s.trees) := by
  have hopen : ∀ line, RefusesVoid cx.table BodyState.notes (Body.openLoop line) [] :=
    fun _ => of_traced (.of_notes fun _ => rfl)
  have hclose : RefusesVoid cx.table BodyState.notes Body.closeLoop [] :=
    of_traced (.of_notes fun _ => rfl)
  induction s with
  | absent =>
    rw [MethodContext.check]
    exact of_traced (.pure ())
  | decl line name type init =>
    rw [MethodContext.check, Stmt.trees, Tree.collect_node, init.outerUses_trees]
    exact value (fun _ => of_traced ((Traced.declare cx line _ name type).bind fun _ => .lift _))
      (cx.declare_void hnames line name type)
  | expr line e =>
    rw [MethodContext.check, Stmt.trees, Tree.collect_node, e.outerUses_trees]
    exact of_traced ((Traced.value cx e).bind fun _ => .lift _)
  | ifElse line e thenBranch elseBranch iht ihe =>
    rw [MethodContext.check, Stmt.trees, Tree.collect_node, Tree.collect_append,
      Tree.collect_append, e.outerUses_trees]
    exact (condition .ifElse e).bind fun _ => iht.bind fun _ => ihe
  | whileLoop line e body ih =>
    rw [MethodContext.check, Stmt.trees, Tree.collect_node, Tree.collect_append,
      e.outerUses_trees]
    have hloop := (hopen line).bind fun _ => (condition .whileLoop e).bind fun _ =>
      ih.bind fun _ => hclose
    simpa [Node.outerUses, Stmt.uses] using hloop
  | forLoop line init e update body ih =>
    rw [MethodContext.check, Stmt.trees, Tree.collect_node, Tree.collect_append,
      Tree.collect_append, Tree.collect_append, init.outerUses_trees, e.outerUses_trees,
      update.outerUses_trees]
    have hloop := (hopen line).bind fun _ => (of_traced (.value cx init)).bind fun _ =>
      (condition .forLoop e).bind fun _ => (of_traced (.value cx update)).bind fun _ =>
      ih.bind fun _ => hclose
    simpa [Node.outerUses, Stmt.uses] using hloop
  | breakLoop line =>
    rw [MethodContext.check]
    exact of_traced (.of_notes fun _ => rfl)
  | block line body ih =>
    have hscope : RefusesVoid cx.table BodyState.notes Body.openScope [] :=
      of_traced (.of_notes fun _ => rfl)
    have hexit : RefusesVoid cx.table BodyState.notes Body.closeScope [] :=
      of_traced (.of_notes fun _ => rfl)
    rw [MethodContext.check, Stmt.trees, Tree.collect_node]
    have hblock := hscope.bind fun _ => (checkAll ih).bind fun _ => hexit
    simpa [Node.outerUses, Stmt.uses] using hblock
  | ret line e =>
    rw [MethodContext.check, Stmt.trees, Tree.collect_node, e.outerUses_trees]
    split
    next habsent =>
      refine ⟨(lift _).advances, fun _ _ _ _ _ x hx hne => ?_⟩
      obtain rfl := List.mem_singleton.mp hx
      rw [Expr.isAbsent_eq_false hne] at habsent
      cases habsent
    next hvalue =>
      refine value (fun _ => lift _) fun s => ?_
      rw [Step.reports_lift, MethodContext.returnedValue]
      split_ifs with _ hvoid
      · exact List.cons_ne_nil _ _
      · exact List.cons_ne_nil _ _
      · exact absurd rfl hvoid

end Bodies

theorem checkedMember (cx : Context) (hnames : ∀ c ∈ cx.table.classes, c.name ≠ "<error>")
    (m : Member) :
    RefusesVoid cx.table id (cx.checkedMember m) (Tree.collect Node.outerUses [m.tree]) := by
  cases m with
  | field f =>
    rw [Member.tree, Field.tree, Tree.collect_node, f.init.outerUses_trees]
    exact use (.infer cx _ f.init) (fun _ hs => (Context.settles _ hs.coherent f.init).answers)
      (fun _ => lift _) fun _ => List.cons_ne_nil _ _
  | method m =>
    have hformals : Tree.collect Node.outerUses (m.formals.map Formal.tree) = [] := by
      rw [Tree.collect_map]
      simp [Formal.tree, Node.outerUses]
    have hbody := (of_traced (Traced.declareFormals (cx.ofMethod m) m.formals)).bind fun _ =>
      checkAll fun s (_ : s ∈ m.body) => check (cx.ofMethod m) hnames s
    rw [Member.tree, Method.tree, Tree.collect_node, Tree.collect_append, hformals]
    refine ⟨fun n hn => hbody.advances ⟨n, ScopeStack.empty.enter, []⟩ hn, ?_⟩
    intro n k hn hquiet hk
    exact hbody.refuses ⟨n, ScopeStack.empty.enter, []⟩ k hn
      (List.append_eq_nil_iff.mp hquiet).1 hk

theorem checkedMembers (cx : Context) (hnames : ∀ c ∈ cx.table.classes, c.name ≠ "<error>")
    (ms : List (Option Member)) :
    RefusesVoid cx.table id (cx.checkedMembers ms)
      (Tree.collect Node.outerUses (ms.filterMap (·.map Member.tree))) := by
  induction ms with
  | nil =>
    rw [Context.checkedMembers]
    exact of_traced (.pure ())
  | cons o ms ih =>
    cases o with
    | none => exact ih
    | some m =>
      rw [Context.checkedMembers]
      have hrest := (checkedMember cx hnames m).bind fun _ => ih
      rw [← Tree.collect_append] at hrest
      exact hrest

theorem checkedClasses {t : ClassTable} (hnames : ∀ c ∈ t.classes, c.name ≠ "<error>")
    (cs : List ClassInfo) :
    RefusesVoid t id (t.checkedClasses cs)
      (cs.flatMap fun c => Tree.collect Node.outerUses [c.decl.tree]) := by
  induction cs with
  | nil =>
    rw [ClassTable.checkedClasses]
    exact of_traced (.pure ())
  | cons c cs ih =>
    rw [ClassTable.checkedClasses, List.flatMap_cons, ClassDecl.tree, Tree.collect_node]
    exact (checkedMembers ⟨t, c⟩ hnames c.decl.members).bind fun _ => ih

end RefusesVoid

/-! ### Accepted programs -/

section Declared

variable {p : Program} {entry : EntryPoint}

end Declared

section Accepted

variable {p : Program} {entry : EntryPoint} (quiet : Quiet (some p) entry)
  (hnames : ∀ c, some c ∈ p.classes → c.name ≠ "<error>")
include quiet hnames

end Accepted

end ClassCheck
