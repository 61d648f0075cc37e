import ClassCheck.Proofs.Settling

/-!
# The log of calls

Every call that types an expression is put down with the class and the variables it is made for and
the notes it starts from. Calls are chained: each starts from the notes that the one before has
left, and what the last one leaves is the outcome. Calls for the parts of an expression are made
inside the call for the whole.
-/

namespace ClassCheck

/-- A call that types an expression. -/
structure Call where
  context : Context
  vars : Vars
  expr : Expr
  notes : Notes

namespace Call

def run (c : Call) : Judged (Ty × Notes) := c.context.infer c.vars c.expr c.notes

def answer (c : Call) : Ty := c.run.value.1

def after (c : Call) : Notes := c.run.value.2

end Call

namespace Context

variable (cx : Context)

def callsFor (vars : Vars) : List Expr → Notes → List Call
  | [], _ => []
  | e :: es, n => ⟨cx, vars, e, n⟩ :: callsFor vars es (cx.infer vars e n).value.2

theorem map_expr_callsFor (vars : Vars) (es : List Expr) (n : Notes) :
    (cx.callsFor vars es n).map Call.expr = es := by
  induction es generalizing n with
  | nil => rfl
  | cons e es ih => rw [callsFor, List.map_cons, ih]

theorem callsFor_made {vars : Vars} {es : List Expr} {n : Notes} :
    ∀ c ∈ cx.callsFor vars es n, c.context = cx ∧ c.vars = vars ∧ c.expr ∈ es := by
  induction es generalizing n with
  | nil =>
    intro c hc
    cases hc
  | cons e es ih =>
    intro c hc
    rcases List.mem_cons.mp hc with rfl | hc
    · exact ⟨rfl, rfl, List.mem_cons_self⟩
    · obtain ⟨hcontext, hvars, hexpr⟩ := ih c hc
      exact ⟨hcontext, hvars, List.mem_cons_of_mem e hexpr⟩

theorem findings_eq_calls (vars : Vars) (es : List Expr) (n : Notes) :
    (cx.findings vars es n).1 =
      (cx.callsFor vars es n).map fun c => ⟨c.answer, c.run.reports⟩ := by
  induction es generalizing n with
  | nil => rfl
  | cons e es ih =>
    rw [findings, callsFor, List.map_cons, ih]
    rfl

end Context

/-- The calls for the parts of an expression, made inside the call for the whole. -/
def Call.parts (c : Call) : List Call := c.context.callsFor c.vars c.expr.parts c.notes

theorem Call.expr_ne_absent {c p : Call} (hp : p ∈ c.parts) : c.expr ≠ .absent := by
  intro habsent
  rw [parts, habsent] at hp
  cases hp

namespace MethodContext

variable (cx : MethodContext)

def call (e : Expr) (s : BodyState) : Call :=
  ⟨cx.toContext, s.locals :: cx.self.varChain, e, s.notes⟩

mutual

def calls : Stmt → BodyState → List Call
  | .absent, _ => []
  | .decl _ _ _ init, s => [cx.call init s]
  | .expr _ value, s => [cx.call value s]
  | .ifElse _ condition thenBranch elseBranch, s =>
      let s₁ := (cx.condition .ifElse condition s).value.2
      let s₂ := (cx.check thenBranch s₁).value.2
      cx.call condition s :: (calls thenBranch s₁ ++ calls elseBranch s₂)
  | .whileLoop line condition body, s =>
      let s₀ := (Body.openLoop line s).value.2
      let s₁ := (cx.condition .whileLoop condition s₀).value.2
      cx.call condition s₀ :: calls body s₁
  | .forLoop line init condition update body, s =>
      let s₀ := (Body.openLoop line s).value.2
      let s₁ := (cx.value init s₀).value.2
      let s₂ := (cx.condition .forLoop condition s₁).value.2
      let s₃ := (cx.value update s₂).value.2
      cx.call init s₀ :: cx.call condition s₁ :: cx.call update s₂ :: calls body s₃
  | .breakLoop _, _ => []
  | .block _ body, s => callsOfAll body (Body.openScope s).value.2
  | .ret _ value, s => if value.isAbsent then [] else [cx.call value s]

def callsOfAll : List Stmt → BodyState → List Call
  | [], _ => []
  | st :: sts, s => calls st s ++ callsOfAll sts (cx.check st s).value.2

end

end MethodContext

namespace Context

variable (cx : Context)

def memberCalls : Member → Notes → List Call
  | .field f, n => [⟨cx, cx.self.varChain, f.init, n⟩]
  | .method m, n =>
      let s : BodyState := ⟨n, ScopeStack.empty.enter, []⟩
      (cx.ofMethod m).callsOfAll m.body ((cx.ofMethod m).declareFormals m.formals s).value.2

def membersCalls : List (Option Member) → Notes → List Call
  | [], _ => []
  | none :: rest, n => membersCalls rest n
  | some m :: rest, n => cx.memberCalls m n ++ membersCalls rest (cx.checkedMember m n).value.2

end Context

def ClassTable.calls (t : ClassTable) : List ClassInfo → Notes → List Call
  | [], _ => []
  | c :: rest, n =>
      Context.membersCalls ⟨t, c⟩ c.decl.members n ++
        ClassTable.calls t rest (Context.checkedMembers ⟨t, c⟩ c.decl.members n).value.2

def Analysis.calls (a : Analysis) : List Call :=
  a.table.calls (a.order.filter (!·.isBuiltIn)) Notes.empty

/-- The calls of an analysis, at any depth. -/
inductive Analysis.Makes (a : Analysis) : Call → Prop
  | outermost {c : Call} : c ∈ a.calls → a.Makes c
  | part {c p : Call} : a.Makes c → p ∈ c.parts → a.Makes p

/-- The calls are among the classes of `t`, and each starts from where the one before ends. -/
def ClassTable.Chained (t : ClassTable) : Notes → List Call → Notes → Prop
  | n, [], k => n = k
  | n, c :: cs, k => c.context.table = t ∧ c.notes = n ∧ t.Chained c.after cs k

namespace ClassTable.Chained

variable {t : ClassTable} {n k m : Notes}

theorem append {cs ds : List Call} (h : t.Chained n cs k) (h' : t.Chained k ds m) :
    t.Chained n (cs ++ ds) m := by
  induction cs generalizing n with
  | nil =>
    cases h
    exact h'
  | cons c cs ih => exact ⟨h.1, h.2.1, ih h.2.2⟩

theorem callsFor (cx : Context) (vars : Vars) (es : List Expr) (n : Notes) :
    cx.table.Chained n (cx.callsFor vars es n) (cx.findings vars es n).2 := by
  induction es generalizing n with
  | nil => exact rfl
  | cons e es ih => exact ⟨rfl, rfl, ih _⟩

theorem has_iff {cs : List Call} (h : t.Chained n cs k) (e : Expr) :
    k.Has e ↔ n.Has e ∨ ∃ c ∈ cs, e ∈ c.expr.visits := by
  induction cs generalizing n with
  | nil =>
    cases h
    simp
  | cons c cs ih =>
    obtain ⟨-, rfl, hrest⟩ := h
    have hfirst : c.after.Has e ↔ c.notes.Has e ∨ e ∈ c.expr.visits :=
      Covers.infer c.context c.vars c.expr c.notes e
    rw [ih hrest, hfirst, or_assoc, List.exists_mem_cons_iff]

end ClassTable.Chained

/-- The step `m`, whose state holds notes, makes the calls of `log` one after another and touches
the notes by nothing else; whatever they report is reported. -/
structure Traced {σ α : Type} (t : ClassTable) (notes : σ → Notes) (m : StateT σ Judged α)
    (log : σ → List Call) : Prop where
  chained : ∀ s, t.Chained (notes s) (log s) (notes (m s).value.2)
  reports : ∀ s, ∀ c ∈ log s, c.run.reports ⊆ (m s).reports

namespace Traced

variable {σ α β : Type} {t : ClassTable} {notes : σ → Notes}

theorem bind {m : StateT σ Judged α} {f : α → StateT σ Judged β} {log log' : σ → List Call}
    (hm : Traced t notes m log) (hf : ∀ a, Traced t notes (f a) log') :
    Traced t notes (m >>= f) fun s => log s ++ log' (m s).value.2 where
  chained := fun s => (hm.chained s).append ((hf _).chained _)
  reports := by
    intro s c hc
    rw [Step.reports_bind]
    rcases List.mem_append.mp hc with hc | hc
    · exact List.subset_append_of_subset_left _ (hm.reports s c hc)
    · exact List.subset_append_of_subset_right _ ((hf _).reports _ c hc)

theorem congr {m : StateT σ Judged α} {log log' : σ → List Call} (hm : Traced t notes m log)
    (h : ∀ s, log s = log' s) : Traced t notes m log' := by
  rw [← funext h]
  exact hm

theorem of_notes {m : StateT σ Judged α} (h : ∀ s, notes (m s).value.2 = notes s) :
    Traced t notes m fun _ => [] where
  chained := fun s => (h s).symm
  reports := fun _ _ hc => by cases hc

theorem lift (j : Judged α) : Traced t notes (liftM j : StateT σ Judged α) fun _ => [] :=
  of_notes fun _ => rfl

theorem pure (a : α) : Traced t notes (Pure.pure a : StateT σ Judged α) fun _ => [] :=
  of_notes fun _ => rfl

theorem infer (cx : Context) (vars : Vars) (e : Expr) :
    Traced cx.table id (cx.infer vars e) fun n => [⟨cx, vars, e, n⟩] where
  chained := fun _ => ⟨rfl, rfl, rfl⟩
  reports := by
    intro n c hc
    rw [List.mem_singleton.mp hc]
    exact List.Subset.refl _

section Bodies

variable (cx : MethodContext)

theorem value (e : Expr) :
    Traced cx.table BodyState.notes (cx.value e) fun s => [cx.call e s] where
  chained := fun _ => ⟨rfl, rfl, rfl⟩
  reports := by
    intro s c hc
    rw [List.mem_singleton.mp hc]
    exact List.subset_append_left _ _

theorem condition (place : Conditional) (e : Expr) :
    Traced cx.table BodyState.notes (cx.condition place e) fun s => [cx.call e s] :=
  ((value cx e).bind fun _ => lift _).congr fun _ => List.append_nil _

theorem declare (line : Int) (kind : SymbolKind) (name : String) (type : Ty) :
    Traced cx.table BodyState.notes (cx.declare line kind name type) fun _ => [] := by
  apply of_notes
  intro s
  simp only [MethodContext.declare, Step.value_bind, Step.run_get, Step.value_lift]
  cases (cx.binding s.locals line kind name type).value <;> rfl

variable {cx} in
theorem checkAll {ss : List Stmt}
    (h : ∀ s ∈ ss, Traced cx.table BodyState.notes (cx.check s) (cx.calls s)) :
    Traced cx.table BodyState.notes (cx.checkAll ss) (cx.callsOfAll ss) := by
  induction ss with
  | nil =>
    rw [MethodContext.checkAll]
    exact (pure ()).congr fun s => by rw [MethodContext.callsOfAll]
  | cons s ss ih =>
    rw [MethodContext.checkAll]
    have hrest := ih fun x hx => h x (List.mem_cons_of_mem s hx)
    exact ((h s List.mem_cons_self).bind fun _ => hrest).congr fun b => by
      rw [MethodContext.callsOfAll]

theorem check (s : Stmt) : Traced cx.table BodyState.notes (cx.check s) (cx.calls s) := by
  have hopen : ∀ line, Traced cx.table BodyState.notes (Body.openLoop line) fun _ => [] :=
    fun _ => of_notes fun _ => rfl
  have hclose : Traced cx.table BodyState.notes Body.closeLoop fun _ => [] :=
    of_notes fun _ => rfl
  induction s with
  | absent =>
    rw [MethodContext.check]
    exact (pure ()).congr fun s => by rw [MethodContext.calls]
  | decl line name type init =>
    rw [MethodContext.check]
    refine ((value cx init).bind fun _ => (declare cx line _ name type).bind fun _ =>
      lift _).congr fun s => ?_
    simp [MethodContext.calls]
  | expr line value =>
    rw [MethodContext.check]
    refine ((Traced.value cx value).bind fun _ => lift _).congr fun s => ?_
    simp [MethodContext.calls]
  | ifElse line condition thenBranch elseBranch iht ihe =>
    rw [MethodContext.check]
    refine ((Traced.condition cx _ condition).bind fun _ => iht.bind fun _ => ihe).congr
      fun s => ?_
    simp [MethodContext.calls]
  | whileLoop line condition body ih =>
    rw [MethodContext.check]
    refine ((hopen line).bind fun _ => (Traced.condition cx _ condition).bind fun _ =>
      ih.bind fun _ => hclose).congr fun s => ?_
    simp [MethodContext.calls]
  | forLoop line init condition update body ih =>
    rw [MethodContext.check]
    refine ((hopen line).bind fun _ => (value cx init).bind fun _ =>
      (Traced.condition cx _ condition).bind fun _ => (value cx update).bind fun _ =>
      ih.bind fun _ => hclose).congr fun s => ?_
    simp [MethodContext.calls]
  | breakLoop line =>
    rw [MethodContext.check]
    refine Traced.congr (of_notes fun _ => rfl) fun s => ?_
    rw [MethodContext.calls]
  | block line body ih =>
    rw [MethodContext.check]
    have hscope : Traced cx.table BodyState.notes Body.openScope fun _ => [] :=
      of_notes fun _ => rfl
    have hexit : Traced cx.table BodyState.notes Body.closeScope fun _ => [] :=
      of_notes fun _ => rfl
    refine (hscope.bind fun _ => (checkAll ih).bind fun _ => hexit).congr fun s => ?_
    simp [MethodContext.calls]
  | ret line value =>
    rw [MethodContext.check]
    split
    next habsent => exact (lift _).congr fun s => by rw [MethodContext.calls, if_pos habsent]
    next hvalue =>
      refine ((Traced.value cx value).bind fun _ => lift _).congr fun s => ?_
      rw [MethodContext.calls, if_neg hvalue, List.append_nil]

theorem declareFormals (fs : List Formal) :
    Traced cx.table BodyState.notes (cx.declareFormals fs) fun _ => [] := by
  induction fs with
  | nil =>
    rw [MethodContext.declareFormals]
    exact pure ()
  | cons f fs ih =>
    rw [MethodContext.declareFormals]
    exact (declare cx f.line _ f.name f.type).bind fun _ => ih

end Bodies

theorem checkedMember (cx : Context) (m : Member) :
    Traced cx.table id (cx.checkedMember m) (cx.memberCalls m) := by
  cases m with
  | field f =>
    exact ((infer cx cx.self.varChain f.init).bind fun _ => lift _).congr fun _ => rfl
  | method m =>
    have hbody := (declareFormals (cx.ofMethod m) m.formals).bind fun _ =>
      checkAll fun s (_ : s ∈ m.body) => check (cx.ofMethod m) s
    constructor
    · intro n
      exact hbody.chained ⟨n, ScopeStack.empty.enter, []⟩
    · intro n c hc
      exact List.subset_append_of_subset_left _
        (hbody.reports ⟨n, ScopeStack.empty.enter, []⟩ c hc)

theorem checkedMembers (cx : Context) (ms : List (Option Member)) :
    Traced cx.table id (cx.checkedMembers ms) (cx.membersCalls ms) := by
  induction ms with
  | nil =>
    rw [Context.checkedMembers]
    exact pure ()
  | cons o ms ih =>
    cases o with
    | none => exact ih
    | some m =>
      rw [Context.checkedMembers]
      exact (checkedMember cx m).bind fun _ => ih

theorem checkedClasses (t : ClassTable) (cs : List ClassInfo) :
    Traced t id (t.checkedClasses cs) (t.calls cs) := by
  induction cs with
  | nil =>
    rw [ClassTable.checkedClasses]
    exact pure ()
  | cons c cs ih =>
    rw [ClassTable.checkedClasses]
    exact (checkedMembers ⟨t, c⟩ c.decl.members).bind fun _ => ih

end Traced

/-! ### Where calls are made -/

namespace MethodContext

variable {cx : MethodContext}

theorem callsOfAll_made {sts : List Stmt}
    (h : ∀ st ∈ sts, ∀ s, ∀ c ∈ cx.calls st s, ∃ e s', c = cx.call e s' ∧ e.visits ⊆ st.visits)
    (s : BodyState) : ∀ c ∈ cx.callsOfAll sts s,
      ∃ e s', c = cx.call e s' ∧ e.visits ⊆ sts.flatMap Stmt.visits := by
  induction sts generalizing s with
  | nil =>
    intro c hc
    rw [callsOfAll] at hc
    cases hc
  | cons st sts ih =>
    intro c hc
    rw [callsOfAll] at hc
    rw [List.flatMap_cons]
    rcases List.mem_append.mp hc with hc | hc
    · obtain ⟨e, s', rfl, he⟩ := h st List.mem_cons_self s c hc
      exact ⟨e, s', rfl, List.subset_append_of_subset_left _ he⟩
    · obtain ⟨e, s', rfl, he⟩ := ih (fun x hx => h x (List.mem_cons_of_mem st hx)) _ c hc
      exact ⟨e, s', rfl, List.subset_append_of_subset_right _ he⟩

theorem call_made {st : Stmt} {e : Expr} (hvisits : st.visits = e.visits) {s : BodyState}
    {c : Call} (hc : c ∈ [cx.call e s]) : ∃ e' s', c = cx.call e' s' ∧ e'.visits ⊆ st.visits := by
  refine ⟨e, s, List.mem_singleton.mp hc, ?_⟩
  rw [hvisits]
  exact List.Subset.refl _

theorem calls_made (st : Stmt) (s : BodyState) : ∀ c ∈ cx.calls st s,
    ∃ e s', c = cx.call e s' ∧ e.visits ⊆ st.visits := by
  induction st generalizing s with
  | absent | breakLoop =>
    intro c hc
    rw [calls] at hc
    cases hc
  | decl line name type init =>
    intro c hc
    rw [calls] at hc
    exact call_made (Stmt.visits_decl line name type init) hc
  | expr line value =>
    intro c hc
    rw [calls] at hc
    exact call_made (Stmt.visits_expr line value) hc
  | ret line value =>
    intro c hc
    rw [calls] at hc
    split at hc
    · cases hc
    · exact call_made (Stmt.visits_ret line value) hc
  | ifElse line condition thenBranch elseBranch iht ihe =>
    intro c hc
    rw [calls] at hc
    rw [Stmt.visits_ifElse, List.append_assoc]
    rcases List.mem_cons.mp hc with rfl | hc
    · exact ⟨condition, s, rfl, List.subset_append_left _ _⟩
    rcases List.mem_append.mp hc with hc | hc
    · obtain ⟨e, s', rfl, he⟩ := iht _ c hc
      exact ⟨e, s', rfl, List.subset_append_of_subset_right _
        (List.subset_append_of_subset_left _ he)⟩
    · obtain ⟨e, s', rfl, he⟩ := ihe _ c hc
      exact ⟨e, s', rfl, List.subset_append_of_subset_right _
        (List.subset_append_of_subset_right _ he)⟩
  | whileLoop line condition body ih =>
    intro c hc
    rw [calls] at hc
    rw [Stmt.visits_whileLoop]
    rcases List.mem_cons.mp hc with rfl | hc
    · exact ⟨condition, _, rfl, List.subset_append_left _ _⟩
    · obtain ⟨e, s', rfl, he⟩ := ih _ c hc
      exact ⟨e, s', rfl, List.subset_append_of_subset_right _ he⟩
  | forLoop line init condition update body ih =>
    intro c hc
    rw [calls] at hc
    have hin : ∀ es ∈ [init.visits, condition.visits, update.visits, body.visits],
        es ⊆ (Stmt.forLoop line init condition update body).visits := by
      rw [Stmt.visits_forLoop]
      intro es hes e he
      simp only [List.mem_cons, List.not_mem_nil, or_false] at hes
      rcases hes with rfl | rfl | rfl | rfl <;> simp [he]
    rcases List.mem_cons.mp hc with rfl | hc
    · exact ⟨init, _, rfl, hin _ (by simp)⟩
    rcases List.mem_cons.mp hc with rfl | hc
    · exact ⟨condition, _, rfl, hin _ (by simp)⟩
    rcases List.mem_cons.mp hc with rfl | hc
    · exact ⟨update, _, rfl, hin _ (by simp)⟩
    · obtain ⟨e, s', rfl, he⟩ := ih _ c hc
      exact ⟨e, s', rfl, List.Subset.trans he (hin _ (by simp))⟩
  | block line body ih =>
    intro c hc
    rw [calls] at hc
    rw [Stmt.visits_block]
    exact callsOfAll_made ih _ c hc

end MethodContext

/-- The call is made in the context, with the tables of its class last in sight, for one of the
expressions. -/
structure Call.Inside (c : Call) (cx : Context) (es : List Expr) : Prop where
  context : c.context = cx
  vars : c.vars = cx.self.varChain ∨ ∃ locals, c.vars = locals :: cx.self.varChain
  expr : c.expr.visits ⊆ es

namespace Call.Inside

variable {c : Call} {cx : Context} {es es' : List Expr}

theorem mono (h : c.Inside cx es) (hsub : es ⊆ es') : c.Inside cx es' :=
  ⟨h.context, h.vars, List.Subset.trans h.expr hsub⟩

theorem part (h : c.Inside cx es) {p : Call} (hp : p ∈ c.parts) : p.Inside cx es := by
  obtain ⟨hcontext, hvars, hexpr⟩ := c.context.callsFor_made p hp
  refine ⟨hcontext.trans h.context, hvars ▸ h.vars, fun e he => h.expr ?_⟩
  rw [Expr.visits_eq_parts (expr_ne_absent hp)]
  exact List.mem_cons_of_mem _ (List.mem_flatMap.mpr ⟨p.expr, hexpr, he⟩)

theorem memberCalls {m : Member} {n : Notes} (hc : c ∈ cx.memberCalls m n) :
    c.Inside cx m.visits := by
  cases m with
  | field f =>
    rw [List.mem_singleton.mp hc, Member.visits_field]
    exact ⟨rfl, .inl rfl, List.Subset.refl _⟩
  | method m =>
    rw [Member.visits_method]
    obtain ⟨e, s, rfl, he⟩ :=
      MethodContext.callsOfAll_made (fun st _ => MethodContext.calls_made st) _ c hc
    exact ⟨rfl, .inr ⟨s.locals, rfl⟩, he⟩

theorem membersCalls {ms : List (Option Member)} {n : Notes} (hc : c ∈ cx.membersCalls ms n) :
    c.Inside cx ((ms.filterMap id).flatMap Member.visits) := by
  induction ms generalizing n with
  | nil => cases hc
  | cons o ms ih =>
    cases o with
    | none => exact ih hc
    | some m =>
      rcases List.mem_append.mp hc with hc | hc
      · exact (memberCalls hc).mono (List.subset_append_left _ _)
      · exact (ih hc).mono (List.subset_append_right _ _)

theorem calls {t : ClassTable} {ks : List ClassInfo} {n : Notes} (hc : c ∈ t.calls ks n) :
    ∃ k ∈ ks, c.Inside ⟨t, k⟩ k.decl.visits := by
  induction ks generalizing n with
  | nil => cases hc
  | cons k ks ih =>
    rcases List.mem_append.mp hc with hc | hc
    · refine ⟨k, List.mem_cons_self, ?_⟩
      rw [ClassDecl.visits_eq]
      exact membersCalls hc
    · obtain ⟨l, hl, hinside⟩ := ih hc
      exact ⟨l, List.mem_cons_of_mem k hl, hinside⟩

end Call.Inside

theorem Analysis.Makes.inside {a : Analysis} {c : Call} (hc : a.Makes c) :
    ∃ k ∈ a.order.filter (!·.isBuiltIn), c.Inside ⟨a.table, k⟩ k.decl.visits := by
  induction hc with
  | outermost hc => exact Call.Inside.calls hc
  | part _ hp ih =>
    obtain ⟨k, hk, hinside⟩ := ih
    exact ⟨k, hk, hinside.part hp⟩

end ClassCheck
