import ClassCheck.Proofs.Steps
import ClassCheck.Proofs.Visits
import ClassCheck.Typing.Members

/-!
# How checks are put together

The check of a body is made of few kinds of steps: expressions are typed, names declared, findings
judged, and a scope or a loop is put around a part. What relates these steps of two methods, and
carries over to steps put together, relates the checks of whole bodies. A property of the steps of
one method is the diagonal case.
-/

namespace ClassCheck

namespace Body

def inLoop (line : Int) (m : Body Unit) : Body Unit := do
  openLoop line
  m
  closeLoop

def inScope (m : Body Unit) : Body Unit := do
  openScope
  m
  closeScope

end Body

/-- A relation between steps that carries over to steps put together. It may speak of the
expressions that the steps type, and says of their values what the last argument does. -/
structure StepRelation where
  Holds : {α : Type} → Body α → Body α → List Expr → (α → Prop) → Prop
  skip : Holds (pure ()) (pure ()) [] fun _ => True
  bind : ∀ {α β : Type} {m m' : Body α} {f f' : α → Body β} {es fs : List Expr} {Q : α → Prop}
    {R : β → Prop}, Holds m m' es Q → (∀ a, Q a → Holds (f a) (f' a) fs R) →
    Holds (m >>= f) (m' >>= f') (es ++ fs) R
  loop : ∀ {m m' : Body Unit} {es : List Expr} (line : Int), Holds m m' es (fun _ => True) →
    Holds (Body.inLoop line m) (Body.inLoop line m') es fun _ => True
  scope : ∀ {m m' : Body Unit} {es : List Expr}, Holds m m' es (fun _ => True) →
    Holds (Body.inScope m) (Body.inScope m') es fun _ => True

/-- The relation holds between what two methods do at the nodes of `Ok`. The types that they give to
expressions have the property `V`, and the names that they bind `B`. -/
structure StepRelation.Relates (r : StepRelation) (cx dx : MethodContext) (Ok : Node → Prop)
    (V : Expr → Ty → Prop) (B : Option Symbol → Prop) : Prop where
  value : ∀ {e}, Tree.All Ok e.trees → r.Holds (cx.value e) (dx.value e) e.visits (V e)
  judgedCondition : ∀ {place e t}, V e t → r.Holds (liftM (cx.toContext.condition place e t))
    (liftM (dx.toContext.condition place e t)) [] fun _ => True
  declare : ∀ {line name type init}, Ok (.stmt (.decl line name type init)) →
    r.Holds (cx.declare line .localVariable name type) (dx.declare line .localVariable name type)
      [] B
  initialized : ∀ {line name type init bound t}, Ok (.stmt (.decl line name type init)) →
    V init t → B bound → r.Holds (liftM (cx.initialized line name bound t))
      (liftM (dx.initialized line name bound t)) [] fun _ => True
  statement : ∀ {line e}, Ok (.stmt (.expr line e)) →
    r.Holds (liftM (cx.require e.isStatement line .notAStatement))
      (liftM (dx.require e.isStatement line .notAStatement)) [] fun _ => True
  breakLoop : ∀ {line}, Ok (.stmt (.breakLoop line)) →
    r.Holds (cx.check (.breakLoop line)) (dx.check (.breakLoop line)) [] fun _ => True
  returned : ∀ {line e}, Ok (.stmt (.ret line e)) →
    r.Holds (liftM (cx.returned line)) (liftM (dx.returned line)) [] fun _ => True
  returnedValue : ∀ {line e t}, Ok (.stmt (.ret line e)) → V e t →
    r.Holds (liftM (cx.returnedValue line t)) (liftM (dx.returnedValue line t)) [] fun _ => True
  formal : ∀ {f}, Ok (.formal f) →
    r.Holds (cx.declare f.line .formal f.name f.type) (dx.declare f.line .formal f.name f.type)
      [] fun _ => True

namespace StepRelation.Relates

variable {r : StepRelation} {cx dx : MethodContext} {Ok : Node → Prop}
  {V : Expr → Ty → Prop} {B : Option Symbol → Prop} (h : r.Relates cx dx Ok V B)
include h

theorem condition {e : Expr} (ok : Tree.All Ok e.trees) (place : Conditional) :
    r.Holds (cx.condition place e) (dx.condition place e) e.visits fun _ => True := by
  rw [MethodContext.condition, MethodContext.condition, ← List.append_nil e.visits]
  exact r.bind (h.value ok) fun _ ht => h.judgedCondition ht

omit h in
theorem checkAll {ss : List Stmt}
    (hall : ∀ s ∈ ss, r.Holds (cx.check s) (dx.check s) s.visits fun _ => True) :
    r.Holds (cx.checkAll ss) (dx.checkAll ss) (ss.flatMap Stmt.visits) fun _ => True := by
  induction ss with
  | nil =>
    rw [MethodContext.checkAll, MethodContext.checkAll]
    exact r.skip
  | cons s ss ih =>
    rw [MethodContext.checkAll, MethodContext.checkAll, List.flatMap_cons]
    refine r.bind (hall s List.mem_cons_self) fun _ _ => ?_
    exact ih fun x hx => hall x (List.mem_cons_of_mem s hx)

theorem check {s : Stmt} (ok : Tree.All Ok s.trees) :
    r.Holds (cx.check s) (dx.check s) s.visits fun _ => True := by
  induction s with
  | absent =>
    rw [MethodContext.check, MethodContext.check]
    exact r.skip
  | decl line name type init =>
    obtain ⟨hnode, hinit⟩ := Tree.All.node.mp ok
    rw [MethodContext.check, MethodContext.check, Stmt.visits_decl]
    have hdecl := r.bind (h.value hinit) fun t ht => r.bind (h.declare hnode) fun bound hbound =>
      h.initialized hnode ht hbound
    simpa only [List.append_nil] using hdecl
  | expr line e =>
    obtain ⟨hnode, hvalue⟩ := Tree.All.node.mp ok
    rw [MethodContext.check, MethodContext.check, Stmt.visits_expr]
    simpa only [List.append_nil] using r.bind (h.value hvalue) fun _ _ => h.statement hnode
  | ifElse line c thenBranch elseBranch iht ihe =>
    obtain ⟨-, hall⟩ := Tree.All.node.mp ok
    obtain ⟨hboth, helse⟩ := Tree.All.append.mp hall
    obtain ⟨hc, hthen⟩ := Tree.All.append.mp hboth
    rw [MethodContext.check, MethodContext.check, Stmt.visits_ifElse, List.append_assoc]
    exact r.bind (h.condition hc _) fun _ _ => r.bind (iht hthen) fun _ _ => ihe helse
  | whileLoop line c body ih =>
    obtain ⟨-, hall⟩ := Tree.All.node.mp ok
    obtain ⟨hc, hbody⟩ := Tree.All.append.mp hall
    rw [MethodContext.check, MethodContext.check, Stmt.visits_whileLoop]
    have hinside := r.bind (h.condition hc .whileLoop) fun _ _ => ih hbody
    simpa only [Body.inLoop, bind_assoc] using r.loop line hinside
  | forLoop line init c update body ih =>
    obtain ⟨-, hall⟩ := Tree.All.node.mp ok
    obtain ⟨hheader, hbody⟩ := Tree.All.append.mp hall
    obtain ⟨hstart, hupdate⟩ := Tree.All.append.mp hheader
    obtain ⟨hinit, hc⟩ := Tree.All.append.mp hstart
    rw [MethodContext.check, MethodContext.check, Stmt.visits_forLoop]
    have hinside := r.bind (h.value hinit) fun _ _ => r.bind (h.condition hc .forLoop) fun _ _ =>
      r.bind (h.value hupdate) fun _ _ => ih hbody
    simpa only [Body.inLoop, bind_assoc, List.append_assoc] using r.loop line hinside
  | breakLoop line =>
    rw [Stmt.visits_breakLoop]
    exact h.breakLoop (Tree.All.node.mp ok).1
  | block line body ih =>
    obtain ⟨-, hbody⟩ := Tree.All.node.mp ok
    rw [MethodContext.check, MethodContext.check, Stmt.visits_block]
    exact r.scope (checkAll fun x hx => ih x hx (hbody.of_stmts hx))
  | ret line e =>
    obtain ⟨hnode, hvalue⟩ := Tree.All.node.mp ok
    rw [MethodContext.check, MethodContext.check, Stmt.visits_ret]
    cases e with
    | absent => exact h.returned hnode
    | _ =>
      rw [← List.append_nil (Expr.visits _)]
      exact r.bind (h.value hvalue) fun _ ht => h.returnedValue hnode ht

theorem declareFormals {fs : List Formal} (ok : ∀ f ∈ fs, Ok (.formal f)) :
    r.Holds (cx.declareFormals fs) (dx.declareFormals fs) [] fun _ => True := by
  induction fs with
  | nil =>
    rw [MethodContext.declareFormals, MethodContext.declareFormals]
    exact r.skip
  | cons f fs ih =>
    rw [MethodContext.declareFormals, MethodContext.declareFormals]
    refine r.bind (h.formal (ok f List.mem_cons_self)) fun _ _ => ?_
    exact ih fun x hx => ok x (List.mem_cons_of_mem f hx)

theorem method {m : Method} (ok : Tree.All Ok [m.tree]) :
    r.Holds (cx.declareFormals m.formals >>= fun _ => cx.checkAll m.body)
      (dx.declareFormals m.formals >>= fun _ => dx.checkAll m.body)
      (m.body.flatMap Stmt.visits) fun _ => True := by
  obtain ⟨-, hall⟩ := Tree.All.node.mp ok
  obtain ⟨hformals, hbody⟩ := Tree.All.append.mp hall
  refine r.bind (h.declareFormals fun f hf => ?_) fun _ _ =>
    checkAll fun s hs => h.check (hbody.of_stmts hs)
  exact (Tree.All.node.mp (hformals.of_mem (List.mem_map_of_mem hf))).1

end StepRelation.Relates

/-- A property of steps, whatever they judge, that carries over to steps put together. -/
structure StepProperty where
  Holds : {α : Type} → Body α → List Expr → Prop
  skip : Holds (pure ()) []
  lift : ∀ {α : Type} (j : Judged α), Holds (liftM j) []
  bind : ∀ {α β : Type} {m : Body α} {f : α → Body β} {es fs : List Expr}, Holds m es →
    (∀ a, Holds (f a) fs) → Holds (m >>= f) (es ++ fs)
  loop : ∀ {m : Body Unit} {es : List Expr} (line : Int), Holds m es →
    Holds (Body.inLoop line m) es
  scope : ∀ {m : Body Unit} {es : List Expr}, Holds m es → Holds (Body.inScope m) es

namespace StepProperty

def relation (p : StepProperty) : StepRelation where
  Holds := fun m _ es Q => p.Holds m es ∧ ∀ a, Q a
  skip := ⟨p.skip, fun _ => trivial⟩
  bind := fun {_ _ m _ _ _ _ _ _ _} hm hf =>
    ⟨p.bind hm.1 fun a => (hf a (hm.2 a)).1,
      (hf (m ⟨Notes.empty, ScopeStack.empty, []⟩).value.1 (hm.2 _)).2⟩
  loop := fun line hm => ⟨p.loop line hm.1, fun _ => trivial⟩
  scope := fun hm => ⟨p.scope hm.1, fun _ => trivial⟩

/-- The steps of a method that use the state have the property. -/
structure Met (p : StepProperty) (cx : MethodContext) : Prop where
  value : ∀ e, p.Holds (cx.value e) e.visits
  declare : ∀ line kind name type, p.Holds (cx.declare line kind name type) []
  breakLoop : ∀ line, p.Holds (cx.check (.breakLoop line)) []

namespace Met

variable {p : StepProperty} {cx : MethodContext} (met : p.Met cx)
include met

theorem relates :
    p.relation.Relates cx cx (fun _ => True) (fun _ _ => True) fun _ => True where
  value := fun _ => ⟨met.value _, fun _ => trivial⟩
  judgedCondition := fun _ => ⟨p.lift _, fun _ => trivial⟩
  declare := fun _ => ⟨met.declare _ _ _ _, fun _ => trivial⟩
  initialized := fun _ _ _ => ⟨p.lift _, fun _ => trivial⟩
  statement := fun _ => ⟨p.lift _, fun _ => trivial⟩
  breakLoop := fun _ => ⟨met.breakLoop _, fun _ => trivial⟩
  returned := fun _ => ⟨p.lift _, fun _ => trivial⟩
  returnedValue := fun _ _ => ⟨p.lift _, fun _ => trivial⟩
  formal := fun _ => ⟨met.declare _ _ _ _, fun _ => trivial⟩

theorem condition (place : Conditional) (e : Expr) : p.Holds (cx.condition place e) e.visits :=
  (met.relates.condition (fun _ _ => trivial) place).1

theorem check (s : Stmt) : p.Holds (cx.check s) s.visits :=
  (met.relates.check fun _ _ => trivial).1

theorem checkAll (ss : List Stmt) : p.Holds (cx.checkAll ss) (ss.flatMap Stmt.visits) :=
  (StepRelation.Relates.checkAll fun _ _ => met.relates.check fun _ _ => trivial).1

theorem declareFormals (fs : List Formal) : p.Holds (cx.declareFormals fs) [] :=
  (met.relates.declareFormals fun _ _ => trivial).1

theorem method (m : Method) :
    p.Holds (cx.declareFormals m.formals >>= fun _ => cx.checkAll m.body)
      (m.body.flatMap Stmt.visits) :=
  (met.relates.method fun _ _ => trivial).1

end Met

end StepProperty

/-! ### Members and classes -/

section Classes

variable {P : Check Unit → Check Unit → List Expr → Prop} (skip : P (pure ()) (pure ()) [])
  (seq : ∀ {m m' k k' : Check Unit} {es fs : List Expr}, P m m' es → P k k' fs →
    P (m >>= fun _ => k) (m' >>= fun _ => k') (es ++ fs))
include skip seq

theorem Context.checkedMembers_related (cx dx : Context) {ms : List (Option Member)}
    (member : ∀ m, some m ∈ ms → P (cx.checkedMember m) (dx.checkedMember m) m.visits) :
    P (cx.checkedMembers ms) (dx.checkedMembers ms)
      ((ms.filterMap id).flatMap Member.visits) := by
  induction ms with
  | nil =>
    rw [checkedMembers, checkedMembers]
    exact skip
  | cons o ms ih =>
    have hrest := ih fun m hm => member m (List.mem_cons_of_mem o hm)
    cases o with
    | none => exact hrest
    | some m =>
      rw [checkedMembers, checkedMembers]
      exact seq (member m List.mem_cons_self) hrest

theorem ClassTable.checkedClasses_related {t : ClassTable} {cs : List ClassInfo}
    (member : ∀ c ∈ cs, ∀ m, some m ∈ c.decl.members →
      P (Context.checkedMember ⟨t, c⟩ m) (Context.checkedMember ⟨t, c⟩ m) m.visits) :
    P (t.checkedClasses cs) (t.checkedClasses cs) (cs.flatMap fun c => c.decl.visits) := by
  induction cs with
  | nil =>
    rw [checkedClasses]
    exact skip
  | cons c cs ih =>
    have hclass := Context.checkedMembers_related skip seq _ _ (member c List.mem_cons_self)
    rw [checkedClasses, List.flatMap_cons, ClassDecl.visits_eq]
    exact seq hclass (ih fun x hx => member x (List.mem_cons_of_mem c hx))

end Classes

end ClassCheck
