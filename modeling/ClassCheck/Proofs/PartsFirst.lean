import ClassCheck.Proofs.Steps
import ClassCheck.Proofs.Visits
import ClassCheck.Typing.Infer
import Mathlib.Data.List.Basic

/-!
# Parts first, then one judgement

Typing an expression means typing its parts from left to right, judging the whole by what was found
about them, and noting the outcome. Only the parts and the note touch the notes; the judgement is a
function of the findings.
-/

namespace ClassCheck

namespace Expr

def parts : Expr → List Expr
  | absent | int .. | bool .. | str .. | newObject .. => []
  | var _ receiver _ => [receiver]
  | element _ receiver _ index => [receiver, index]
  | dispatch _ receiver _ args => receiver :: args
  | newArray _ _ size => [size]
  | instanceOf _ operand _ => [operand]
  | cast _ _ operand => [operand]
  | assign _ _ _ value => [value]
  | assignElement _ _ _ index value => [index, value]
  | binary _ _ left right => [left, right]
  | unary _ _ _ operand => [operand]

theorem inner_eq (e : Expr) : e.inner = e.parts.flatMap visits := by
  cases e <;> simp [inner, parts]

theorem visits_eq_parts {e : Expr} (he : e ≠ absent) : e.visits = e :: e.parts.flatMap visits := by
  rw [visits_eq he, inner_eq]

theorem all_parts {P : Node → Prop} {e : Expr} (he : e ≠ absent) (h : Tree.All P e.trees) :
    P (.expr e) ∧ ∀ p ∈ e.parts, Tree.All P p.trees := by
  cases e with
  | absent => exact absurd rfl he
  | int | bool | str | newObject => exact ⟨(Tree.All.node.mp h).1, by simp [parts]⟩
  | var | newArray | instanceOf | cast | assign | unary =>
    obtain ⟨hnode, hpart⟩ := Tree.All.node.mp h
    exact ⟨hnode, by simpa [parts] using hpart⟩
  | element | assignElement | binary =>
    obtain ⟨hnode, hboth⟩ := Tree.All.node.mp h
    exact ⟨hnode, by simpa [parts] using Tree.All.append.mp hboth⟩
  | dispatch site receiver method args =>
    obtain ⟨hnode, hall⟩ := Tree.All.node.mp h
    obtain ⟨hreceiver, hargs⟩ := Tree.All.append.mp hall
    exact ⟨hnode, List.forall_mem_cons.mpr ⟨hreceiver, fun a ha => hargs.of_exprs ha⟩⟩

@[elab_as_elim]
theorem parts_induction {motive : Expr → Prop}
    (step : ∀ e, (∀ p ∈ e.parts, motive p) → motive e) (e : Expr) : motive e := by
  induction e with
  | absent | int | bool | str | newObject => exact step _ (by simp [parts])
  | var _ _ _ ih | newArray _ _ _ ih | instanceOf _ _ _ ih | cast _ _ _ ih | assign _ _ _ _ ih
  | unary _ _ _ _ ih => exact step _ (by simpa [parts] using ih)
  | element _ _ _ _ ih ih' | assignElement _ _ _ _ _ ih ih' | binary _ _ _ _ ih ih' =>
    exact step _ (by simpa [parts] using ⟨ih, ih'⟩)
  | dispatch _ _ _ _ ih ih' => exact step _ (by simpa [parts] using ⟨ih, ih'⟩)

end Expr

namespace Notes

def stores (n : Notes) : Expr → Bool
  | .unary _ _ _ operand => n.isStorage operand
  | _ => false

def mark (n : Notes) (e : Expr) : Option Bool → Notes
  | none => n
  | some up => n.markCast e up

def conclude (n : Notes) (e : Expr) (o : Context.CastOutcome) : Ty × Notes :=
  ((n.mark e o.upcast).settled e o.type, (n.mark e o.upcast).record e o.type)

end Notes

namespace Context

theorem reports_report (cx : Context) (line : Int) (problem : TypingProblem) :
    (cx.report line problem).reports = [⟨cx.self.decl.file, line, problem⟩] := rfl

theorem reports_require (cx : Context) (ok : Bool) (line : Int) (problem : TypingProblem) :
    (cx.require ok line problem).reports =
      if ok then [] else [⟨cx.self.decl.file, line, problem⟩] := by
  cases ok <;> rfl

def finding (found : List (Judged Ty)) (i : Nat) : Judged Ty := found.getD i (pure .error)

variable (cx : Context) (vars : Vars)

/-- Types expressions from left to right, keeping apart what is found about each. -/
def findings : List Expr → Notes → List (Judged Ty) × Notes
  | [], n => ([], n)
  | e :: es, n =>
      let first := cx.infer vars e n
      let rest := findings es first.value.2
      (⟨first.value.1, first.reports⟩ :: rest.1, rest.2)

theorem length_findings (es : List Expr) (n : Notes) :
    (cx.findings vars es n).1.length = es.length := by
  induction es generalizing n with
  | nil => rfl
  | cons e es ih => rw [findings, List.length_cons, ih, List.length_cons]

/-- The judgement on an expression, given the findings about its parts. -/
def judgement (storage : Bool) (e : Expr) (found : List (Judged Ty)) : Judged CastOutcome :=
  match e with
  | .absent => pure ⟨.error, none⟩
  | .int .. => pure ⟨.int, none⟩
  | .bool .. => pure ⟨.boolean, none⟩
  | .str .. => pure ⟨.plain BuiltIn.stringName, none⟩
  | .var site receiver name => do
      let receiverType ← finding found 0
      let t ← cx.varType vars site.line receiver receiverType name
      pure ⟨t, none⟩
  | .element site receiver name index => do
      let receiverType ← finding found 0
      let base ← cx.indexedType vars site.line receiver receiverType name
      let indexType ← finding found 1
      cx.indexed index indexType
      let t ← cx.elementType site.line name base
      pure ⟨t, none⟩
  | .dispatch site receiver method args => do
      let receiverType ← finding found 0
      let owner ← cx.receiverClass site.line receiver receiverType method
      let argTypes ← Reported.forEach found.tail id
      let t ← cx.callType site.line owner method (args.zip argTypes)
      pure ⟨t, none⟩
  | .newObject site className => do
      let t ← cx.objectType site.line className
      pure ⟨t, none⟩
  | .newArray site elemName size => do
      let sizeType ← finding found 0
      let t ← cx.arrayType site.line elemName size sizeType
      pure ⟨t, none⟩
  | .instanceOf site operand target => do
      let operandType ← finding found 0
      let t ← cx.instanceOfType site.line target operand operandType
      pure ⟨t, none⟩
  | .cast site target _ => do
      let operandType ← finding found 0
      cx.castType site.line target operandType
  | .assign site qualifier name value => do
      let target ← cx.targetType vars site.line qualifier name
      let valueType ← finding found 0
      cx.assigned target value valueType name
      pure ⟨target, none⟩
  | .assignElement site qualifier name index value => do
      let target ← cx.targetType vars site.line qualifier name
      let indexType ← finding found 0
      cx.indexed index indexType
      let elem ← cx.targetElement site.line name target
      let valueType ← finding found 1
      cx.assigned elem value valueType name
      pure ⟨elem, none⟩
  | .binary site op _ _ => do
      let leftType ← finding found 0
      let rightType ← finding found 1
      let t ← cx.binaryType site.line op leftType rightType
      pure ⟨t, none⟩
  | .unary site op _ _ => do
      let operandType ← finding found 0
      let t ← cx.unaryType site.line op storage operandType
      pure ⟨t, none⟩

variable {cx vars}

theorem reports_judgement {storage : Bool} {e : Expr} {found : List (Judged Ty)}
    (hlength : found.length = e.parts.length) :
    ∀ j ∈ found, j.reports ⊆ (cx.judgement vars storage e found).reports := by
  intro j hj r hr
  cases e with
  | absent | int | bool | str | newObject =>
    rw [List.length_eq_zero_iff.mp hlength] at hj
    cases hj
  | var | newArray | instanceOf | cast | assign | unary =>
    obtain ⟨first, rfl⟩ := List.length_eq_one_iff.mp hlength
    obtain rfl := List.mem_singleton.mp hj
    simp [judgement, finding, hr]
  | element | assignElement | binary =>
    obtain ⟨first, second, rfl⟩ := List.length_eq_two.mp hlength
    rcases List.mem_pair.mp hj with rfl | rfl <;> simp [judgement, finding, hr]
  | dispatch site receiver method args =>
    obtain ⟨first, rest, rfl⟩ := List.exists_cons_of_length_eq_add_one hlength
    rcases List.mem_cons.mp hj with rfl | hj
    · simp [judgement, finding, hr]
    · have hargs : r ∈ (Reported.forEach rest id).reports := List.mem_flatMap.mpr ⟨j, hj, hr⟩
      simp [judgement, hargs]

theorem reports_settle (e : Expr) (t : Ty) (n : Notes) : (Check.settle e t n).reports = [] := rfl

theorem reports_markCast (e : Expr) (upcast : Option Bool) (n : Notes) :
    (Check.markCast e upcast n).reports = [] := by
  cases upcast <;> rfl

theorem value_markCast (e : Expr) (upcast : Option Bool) (n : Notes) :
    (Check.markCast e upcast n).value = ((), n.mark e upcast) := by
  cases upcast <;> rfl

theorem inferAll_eq (es : List Expr) (n : Notes) :
    cx.inferAll vars es n =
      ⟨((cx.findings vars es n).1.map Reported.value, (cx.findings vars es n).2),
        (cx.findings vars es n).1.flatMap Reported.reports⟩ := by
  induction es generalizing n with
  | nil =>
    rw [inferAll]
    rfl
  | cons e es ih =>
    rw [inferAll]
    apply Reported.ext
    · rw [Step.value_bind, Step.value_bind, ih]
      rfl
    · rw [Step.reports_bind, Step.reports_bind, ih]
      exact congrArg _ (List.append_nil _)

theorem infer_eq {e : Expr} (he : e ≠ .absent) (n : Notes) :
    let found := cx.findings vars e.parts n
    let j := cx.judgement vars (found.2.stores e) e found.1
    cx.infer vars e n = ⟨found.2.conclude e j.value, j.reports⟩ := by
  intro found j
  rw [show j = cx.judgement vars (found.2.stores e) e found.1 from rfl]
  cases e with
  | absent => exact absurd rfl he
  | dispatch site receiver method args =>
    rw [infer]
    apply Reported.ext
    · simp only [Step.value_bind, inferAll_eq]
      rfl
    · simp [found, judgement, finding, Expr.parts, findings, reports_settle, inferAll_eq,
        Reported.forEach]
  | cast site target operand =>
    rw [infer]
    apply Reported.ext
    · simp only [Step.value_bind, value_markCast]
      rfl
    · simp [found, judgement, finding, Expr.parts, findings, reports_settle, reports_markCast]
  | _ =>
    rw [infer]
    apply Reported.ext
    · rfl
    · simp [found, judgement, finding, Expr.parts, findings, reports_settle, Notes.stores]

end Context

end ClassCheck
