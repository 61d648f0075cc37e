import ClassCheck.Analysis
import ClassCheck.Proofs.CheckSteps
import ClassCheck.Proofs.HierarchyShape
import ClassCheck.Proofs.PartsFirst

/-! Typing covers what a walk visits. A step covers a list of expressions if it notes a type for
each of them and for no other; every step of the analysis covers exactly what is visited in the
piece of syntax that it is about, on its error paths as well. -/

namespace ClassCheck

def Notes.Has (n : Notes) (e : Expr) : Prop := (n.typeOf? e).isSome = true

theorem Notes.has_record (n : Notes) (e : Expr) (t : Ty) (x : Expr) :
    (n.record e t).Has x ↔ n.Has x ∨ x = e := by
  rw [Has, Has, typeOf?_record]
  by_cases hx : x = e <;> simp [hx]

theorem Notes.has_conclude (n : Notes) (e : Expr) (o : Context.CastOutcome) (x : Expr) :
    (n.conclude e o).2.Has x ↔ n.Has x ∨ x = e := by
  have hmark : (n.mark e o.upcast).Has x ↔ n.Has x := by
    cases o.upcast <;> exact Iff.rfl
  rw [conclude, has_record, hmark]

/-- The step `m`, whose state holds notes, notes types for `es` and for nothing else. -/
def Covers {σ α : Type} (notes : σ → Notes) (m : StateT σ Judged α) (es : List Expr) : Prop :=
  ∀ s x, (notes (m s).value.2).Has x ↔ (notes s).Has x ∨ x ∈ es

namespace Covers

variable {σ α β : Type} {notes : σ → Notes}

theorem bind {m : StateT σ Judged α} {f : α → StateT σ Judged β} {es fs : List Expr}
    (hm : Covers notes m es) (hf : ∀ a, Covers notes (f a) fs) :
    Covers notes (m >>= f) (es ++ fs) := by
  intro s x
  rw [Step.value_bind, hf, hm, List.mem_append, or_assoc]

theorem of_notes {m : StateT σ Judged α} (h : ∀ s, notes (m s).value.2 = notes s) :
    Covers notes m [] := by
  intro s x
  simp [h]

theorem pure (a : α) : Covers notes (Pure.pure a : StateT σ Judged α) [] :=
  of_notes fun _ => rfl

theorem lift (j : Judged α) : Covers notes (liftM j : StateT σ Judged α) [] :=
  of_notes fun _ => rfl

theorem findings {cx : Context} {vars : Vars} {es : List Expr}
    (h : ∀ e ∈ es, Covers id (cx.infer vars e) e.visits) (n : Notes) (x : Expr) :
    (cx.findings vars es n).2.Has x ↔ n.Has x ∨ x ∈ es.flatMap Expr.visits := by
  induction es generalizing n with
  | nil => simp [Context.findings]
  | cons e es ih =>
    have hfirst : (cx.infer vars e n).value.2.Has x ↔ n.Has x ∨ x ∈ e.visits :=
      h e List.mem_cons_self n x
    rw [Context.findings, ih fun y hy => h y (List.mem_cons_of_mem e hy), hfirst,
      List.flatMap_cons, List.mem_append, or_assoc]

theorem infer (cx : Context) (vars : Vars) (e : Expr) :
    Covers id (cx.infer vars e) e.visits := by
  induction e using Expr.parts_induction with
  | step e ih =>
    by_cases he : e = .absent
    · rw [he, Context.infer, Expr.visits_absent]
      exact pure Ty.error
    · intro n x
      have hparts := findings ih n x
      rw [Context.infer_eq he, Expr.visits_eq_parts he, List.mem_cons, or_left_comm]
      exact (Notes.has_conclude _ e _ x).trans (or_comm.trans (or_congr_right hparts))

def property : StepProperty where
  Holds := Covers BodyState.notes
  skip := pure ()
  lift := lift
  bind := bind
  loop := fun line hm s => hm ⟨s.notes, s.locals, line :: s.loops⟩
  scope := fun hm s => hm ⟨s.notes, s.locals.enter, s.loops⟩

theorem declare (cx : MethodContext) (line : Int) (kind : SymbolKind) (name : String) (type : Ty) :
    Covers BodyState.notes (cx.declare line kind name type) [] := by
  apply of_notes
  intro s
  simp only [MethodContext.declare, Step.value_bind, Step.run_get, Step.value_lift]
  cases (cx.binding s.locals line kind name type).value <;> rfl

theorem met (cx : MethodContext) : property.Met cx where
  value := fun e s => infer cx.toContext (s.locals :: cx.self.varChain) e s.notes
  declare := declare cx
  breakLoop := fun _ => of_notes fun _ => rfl

theorem checkedMember (cx : Context) (m : Member) :
    Covers id (cx.checkedMember m) m.visits := by
  cases m with
  | field f =>
    rw [Context.checkedMember, Member.visits_field, ← List.append_nil f.init.visits]
    exact (infer cx cx.self.varChain f.init).bind fun _ => lift _
  | method m =>
    rw [Context.checkedMember, Member.visits_method]
    exact fun notes => (met (cx.ofMethod m)).method m ⟨notes, ScopeStack.empty.enter, []⟩

theorem checkedMembers (cx : Context) (ms : List (Option Member)) :
    Covers id (cx.checkedMembers ms) ((ms.filterMap id).flatMap Member.visits) :=
  Context.checkedMembers_related (P := fun m _ => Covers id m) (pure ())
    (fun hm hk => hm.bind fun _ => hk) cx cx fun m _ => checkedMember cx m

theorem checkedClasses (t : ClassTable) (cs : List ClassInfo) :
    Covers id (t.checkedClasses cs) (cs.flatMap fun c => c.decl.visits) :=
  ClassTable.checkedClasses_related (P := fun m _ => Covers id m) (pure ())
    (fun hm hk => hm.bind fun _ => hk) fun c _ m _ => checkedMember ⟨t, c⟩ m

end Covers

end ClassCheck
