import ClassCheck.Proofs.CallLog
import ClassCheck.Proofs.Overriding
import ClassCheck.Proofs.Restoration

/-!
# Scopes and loops are restored

A statement leaves the loops around it and all scopes but the innermost as it found them, whatever
is wrong in it. In the innermost scope it may bind names, though none that is bound there already.
Expressions bind nothing. The tables of a class are filled when its members are declared and are
only looked into from then on, each a single scope.
-/

namespace ClassCheck

/-! ### The states in which statements are checked -/

namespace MethodContext

variable (cx : MethodContext)

def sequence : List Stmt → BodyState → List (Stmt × BodyState)
  | [], _ => []
  | st :: sts, s => (st, s) :: sequence sts (cx.check st s).value.2

def nested : Stmt → BodyState → List (Stmt × BodyState)
  | .ifElse _ condition thenBranch elseBranch, s =>
      let s₁ := (cx.condition .ifElse condition s).value.2
      [(thenBranch, s₁), (elseBranch, (cx.check thenBranch s₁).value.2)]
  | .whileLoop line condition body, s =>
      let s₀ := (Body.openLoop line s).value.2
      [(body, (cx.condition .whileLoop condition s₀).value.2)]
  | .forLoop line init condition update body, s =>
      let s₀ := (Body.openLoop line s).value.2
      let s₁ := (cx.value init s₀).value.2
      let s₂ := (cx.condition .forLoop condition s₁).value.2
      [(body, (cx.value update s₂).value.2)]
  | .block _ body, s => cx.sequence body (Body.openScope s).value.2
  | .absent, _ | .decl .., _ | .expr .., _ | .breakLoop _, _ | .ret .., _ => []

variable {cx}

theorem sequence_restored {sts : List Stmt} {s : BodyState} :
    ∀ p ∈ cx.sequence sts s, s.Restored p.2 := by
  induction sts generalizing s with
  | nil =>
    intro p hp
    cases hp
  | cons st sts ih =>
    intro p hp
    rcases List.mem_cons.mp hp with rfl | hp
    · exact .same rfl rfl
    · exact ((Restores.met cx).check st s).trans (ih p hp)

theorem nested_level_pos {st : Stmt} {s : BodyState} (hs : 0 < s.locals.level) :
    ∀ p ∈ cx.nested st s, 0 < p.2.locals.level := by
  cases st with
  | absent | decl | expr | breakLoop | ret =>
    intro p hp
    cases hp
  | ifElse line condition thenBranch elseBranch =>
    have hthen := ((Restores.met cx).condition .ifElse condition s).level_pos hs
    have helse := ((Restores.met cx).check thenBranch _).level_pos hthen
    simpa [nested] using ⟨hthen, helse⟩
  | whileLoop | forLoop =>
    intro p hp
    rw [List.mem_singleton.mp hp]
    exact hs
  | block line body =>
    intro p hp
    have hopened : 0 < (Body.openScope s).value.2.locals.level := Nat.succ_pos _
    exact (sequence_restored p hp).level_pos hopened

end MethodContext

theorem MethodContext.call_within (cx : MethodContext) {e : Expr} {s : BodyState} {c : Call}
    (h : Relation.ReflTransGen (fun c p => p ∈ c.parts) (cx.call e s) c) :
    c.context = cx.toContext ∧ c.vars = s.locals :: cx.self.varChain := by
  induction h with
  | refl => exact ⟨rfl, rfl⟩
  | @tail c p _ hp ih =>
    obtain ⟨hcontext, hvars, -⟩ := c.context.callsFor_made p hp
    exact ⟨hcontext.trans ih.1, hvars.trans ih.2⟩

/-- The check of a method comes to the statement in the state, from some notes on the expressions
before. -/
inductive Context.ComesTo (cx : Context) (m : Method) : Stmt → BodyState → Prop
  | body (notes : Notes) {st : Stmt} {s : BodyState} :
      (st, s) ∈ (cx.ofMethod m).sequence m.body ((cx.ofMethod m).declareFormals m.formals
        ⟨notes, ScopeStack.empty.enter, []⟩).value.2 → ComesTo cx m st s
  | nested {st st' : Stmt} {s s' : BodyState} :
      ComesTo cx m st s → (st', s') ∈ (cx.ofMethod m).nested st s → ComesTo cx m st' s'

theorem Context.ComesTo.level_pos {cx : Context} {m : Method} {st : Stmt} {s : BodyState}
    (h : cx.ComesTo m st s) : 0 < s.locals.level := by
  induction h with
  | @body notes st s hmem =>
    have hstart : 0 < (ScopeStack.empty : ScopeStack Symbol).enter.level := Nat.succ_pos _
    have hformals := ((Restores.met (cx.ofMethod m)).declareFormals m.formals
      ⟨notes, ScopeStack.empty.enter, []⟩).level_pos hstart
    exact (MethodContext.sequence_restored _ hmem).level_pos hformals
  | nested _ hmem ih => exact MethodContext.nested_level_pos ih _ hmem

/-- Whatever statement the check of a method comes to, it leaves the loops and all scopes but the
innermost as they were; the innermost scope only gains names, and after a block not even that. An
expression is typed with the scopes of its place in sight at any depth, and none binds anything. The
tables of a class are one scope each, with the members that were added when the members of all
classes were entered, and they are in sight whenever an expression of the class is typed. -/
theorem scopes_and_loops_restored (program : Option Program) (entry : EntryPoint) :
    let a := analyze program entry
    let h := Hierarchy.ofProgram program
    (∀ (cx : Context) (m : Method) (st : Stmt) (s : BodyState), cx.ComesTo m st s →
      let s' := ((cx.ofMethod m).check st s).value.2
      s'.loops = s.loops ∧ s.locals.Grows s'.locals ∧
      (∀ name v, s.locals.peek name = some v → s'.locals.peek name = some v) ∧
      (∀ line body, st = .block line body → s'.locals = s.locals) ∧
      ∀ c ∈ (cx.ofMethod m).calls st s, ∃ locals, c.vars = locals :: cx.self.varChain) ∧
    (∀ (cx : MethodContext) (e : Expr) (s : BodyState),
      (cx.value e s).value.2.loops = s.loops ∧ (cx.value e s).value.2.locals = s.locals ∧
      ∀ c, Relation.ReflTransGen (fun c p => p ∈ c.parts) (cx.call e s) c →
        c.context = cx.toContext ∧ c.vars = s.locals :: cx.self.varChain) ∧
    (∀ c, a.Makes c → ∃ k ∈ a.order, c.context = ⟨a.table, k⟩ ∧
      (c.vars = k.varChain ∨ ∃ locals, c.vars = locals :: k.varChain)) ∧
    ∀ k ∈ a.order, k.own.vars.scopes = [Members.fieldScope k.own.fields] ∧
      k.own.signatures.scopes = [Members.methodScope k.own.methods] ∧
      k.own = h.environment.value.members (h.number k.toClassNode) ∧
      ∀ c, a.Makes c → c.context.self.name = k.name → c.context.self = k := by
  intro a h
  refine ⟨?_, fun cx e s => ⟨rfl, rfl, fun c hc => cx.call_within hc⟩, ?_, ?_⟩
  · intro cx m st s hs s'
    have restored : s.Restored s' := (Restores.met _).check st s
    have hgrows := restored.inner hs.level_pos
    refine ⟨restored.loops, hgrows, fun name v hv => hgrows.peek hv, ?_, ?_⟩
    · rintro line body rfl
      have hbody : Restores ((cx.ofMethod m).checkAll body) := (Restores.met _).checkAll body
      simpa only [s', MethodContext.check, Body.inScope] using hbody.inScope_locals s
    · intro c hc
      obtain ⟨e, s₁, rfl, -⟩ := MethodContext.calls_made st s c hc
      exact ⟨s₁.locals, rfl⟩
  · intro c hc
    obtain ⟨k, hk, hinside⟩ := hc.inside
    exact ⟨k, List.mem_of_mem_filter hk, hinside.context, hinside.vars⟩
  · intro k hk
    obtain ⟨n, hn, rfl⟩ := mem_analyze_order.mp hk
    have flat := Members.Flat.empty.declareAll h n (h.inherited n) n.decl.members
    have linked := Hierarchy.ofProgram_linked program
    refine ⟨flat.vars, flat.signatures, (linked.environment_members hn).symm, ?_⟩
    intro c hc hname
    obtain ⟨k, hk, hinside⟩ := hc.inside
    obtain ⟨d, hd, rfl⟩ := mem_analyze_order.mp (List.mem_of_mem_filter hk)
    rw [hinside.context] at hname ⊢
    rw [linked.eq_of_name hd hn hname]

def hidingMethod : Method :=
  ⟨1, "run", .void, [⟨1, "x", .boolean⟩],
    [.whileLoop 2 .absent (.block 3 [.decl 4 "x" .int .absent, .decl 5 "x" .boolean .absent])]⟩

theorem hidingMethod_restored :
    let a := analyze none ⟨"Main", "main"⟩
    let cx : Context := ⟨a.table, a.table.root⟩
    ∃ s, cx.ComesTo hidingMethod (.decl 5 "x" .boolean .absent) s ∧ s.loops = [2] ∧
      s.locals.peek "x" = some ⟨"x", .localVariable, .int⟩ ∧
      let s' := ((cx.ofMethod hidingMethod).check (.decl 5 "x" .boolean .absent) s).value.2
      s'.loops = [2] ∧ s'.locals.exit = s.locals.exit ∧
        s'.locals.peek "x" = some ⟨"x", .localVariable, .int⟩ := by
  intro a cx
  let mcx := cx.ofMethod hidingMethod
  let s₀ := (mcx.declareFormals hidingMethod.formals
    ⟨Notes.empty, ScopeStack.empty.enter, []⟩).value.2
  let s₁ := (mcx.condition .whileLoop .absent (Body.openLoop 2 s₀).value.2).value.2
  let s₂ := (mcx.check (.decl 4 "x" .int .absent) (Body.openScope s₁).value.2).value.2
  have hloop : cx.ComesTo hidingMethod (.whileLoop 2 .absent _) s₀ :=
    .body Notes.empty List.mem_cons_self
  have hblock : cx.ComesTo hidingMethod (.block 3 _) s₁ := hloop.nested List.mem_cons_self
  have hsecond : cx.ComesTo hidingMethod (.decl 5 "x" .boolean .absent) s₂ :=
    hblock.nested (List.mem_cons_of_mem _ List.mem_cons_self)
  have hfirst : s₂.locals.peek "x" = some ⟨"x", .localVariable, .int⟩ := rfl
  have hrestored := (scopes_and_loops_restored none ⟨"Main", "main"⟩).1 cx hidingMethod _ _ hsecond
  exact ⟨s₂, hsecond, rfl, hfirst, hrestored.1, hrestored.2.1.outer, hrestored.2.2.1 "x" _ hfirst⟩

end ClassCheck
