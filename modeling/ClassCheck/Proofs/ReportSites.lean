import ClassCheck.Proofs.CheckSteps
import ClassCheck.Proofs.Inheritance
import ClassCheck.Proofs.PartsFirst
import Mathlib.Data.List.Forall2
import Mathlib.Tactic.SplitIfs

/-!
# Where problems are reported

A problem of a class is reported in the file of the class, and on the line of a node that is there.
A missing part has the error type, which no rule objects to, so nothing is reported at its place.
-/

namespace ClassCheck

def Node.On (L : Int → Prop) : Node → Prop
  | .program _ | .noClass => True
  | .classDecl c => L c.line
  | .field f => L f.line
  | .method m => L m.line
  | .formal f => L f.line
  | .stmt s => L s.line
  | .expr e => L e.line

theorem Node.On.mono {L L' : Int → Prop} (h : ∀ line, L line → L' line) {n : Node} (on : n.On L) :
    n.On L' := by
  cases n with
  | program | noClass => trivial
  | _ => exact h _ on

theorem Node.on_any (n : Node) : n.On fun _ => True := by
  cases n <;> trivial

def Reported.Only {π α : Type} (R : Located π → Prop) (j : Reported π α) : Prop :=
  ∀ r ∈ j.reports, R r

abbrev Reported.Stands {π α : Type} (file : String) (L : Int → Prop) (j : Reported π α) : Prop :=
  j.Only fun r => r.file = file ∧ L r.line

namespace Reported

variable {π α β : Type} {R : Located π → Prop}

@[simp] theorem only_pure (a : α) : (pure a : Reported π α).Only R := by
  intro r hr
  cases hr

@[simp] theorem only_bind {j : Reported π α} {f : α → Reported π β} :
    (j >>= f).Only R ↔ j.Only R ∧ (f j.value).Only R := by
  rw [Only, reports_bind, List.forall_mem_append, Only, Only]

@[simp] theorem only_map {f : α → β} {j : Reported π α} : (f <$> j).Only R ↔ j.Only R := by
  rw [Only, reports_map, Only]

@[simp] theorem only_report {file : String} {line : Int} {problem : π} :
    (report file line problem).Only R ↔ R ⟨file, line, problem⟩ := by
  simp [Only]

end Reported

theorem Ty.isError_iff {t : Ty} : t.isError = true ↔ t.name = "<error>" := beq_iff_eq

theorem Ty.fits_of_isError {t : Ty} (h : t.isError = true) :
    t.fitsInt = true ∧ t.fitsBoolean = true ∧ t.isVoid = false ∧ t.isPrimitive = false := by
  obtain ⟨name, array⟩ := t
  obtain rfl : name = "<error>" := Ty.isError_iff.mp h
  cases array <;> decide

theorem ClassTable.accepts_of_isError (table : ClassTable) (target : Ty) {t : Ty}
    (h : t.isError = true) : table.accepts target t = true := by
  rw [accepts, h, Bool.or_true, if_pos rfl]

/-- Reports on the line have the property `R`, stray breaks apart: a rule for expressions finds
none. -/
def Context.Permits (cx : Context) (R : Located TypingProblem → Prop) (line : Int) : Prop :=
  ∀ problem, problem ≠ .breakOutsideLoop → R ⟨cx.self.decl.file, line, problem⟩

namespace Context

variable {cx : Context} {R : Located TypingProblem → Prop} {line : Int}

theorem report_only (hline : cx.Permits R line) (problem : TypingProblem)
    (hother : problem ≠ .breakOutsideLoop) : (cx.report line problem).Only R := by
  rw [report, Reported.only_report]
  exact hline problem hother

theorem refuse_only (hline : cx.Permits R line) (problem : TypingProblem)
    (hother : problem ≠ .breakOutsideLoop) : (cx.refuse line problem).Only R := by
  rw [refuse, Reported.only_bind]
  exact ⟨report_only hline problem hother, Reported.only_pure _⟩

theorem require_only {ok : Bool} (h : ok = true ∨ cx.Permits R line) (problem : TypingProblem)
    (hother : problem ≠ .breakOutsideLoop) : (cx.require ok line problem).Only R := by
  rw [require]
  split_ifs with hok
  · exact Reported.only_pure ()
  · exact report_only (h.resolve_left hok) problem hother

section Rules

variable (hline : cx.Permits R line)
include hline

theorem variableType_only (vars : Vars) (name : String) :
    (cx.variableType vars line name).Only R := by
  rw [variableType]
  split <;> simp [refuse_only hline]

theorem fieldType_only (owner : ClassInfo) (name : String) :
    (cx.fieldType owner line name).Only R := by
  rw [fieldType]
  split <;> simp [refuse_only hline]

theorem nameType_only (vars : Vars) (name : String) :
    (cx.nameType vars line name).Only R := by
  rw [nameType]
  split_ifs <;> simp [variableType_only hline]

theorem receiverField_only (receiver : Expr) (name : String) :
    (cx.receiverField line receiver name).Only R := by
  rw [receiverField]
  split <;> simp [refuse_only hline, fieldType_only hline]

theorem memberType_only (receiver : Expr) (receiverType : Ty) (name : String) :
    (cx.memberType line receiver receiverType name).Only R := by
  rw [memberType]
  split_ifs <;> simp [refuse_only hline, receiverField_only hline]

theorem varType_only (vars : Vars) (receiver : Expr) (receiverType : Ty) (name : String) :
    (cx.varType vars line receiver receiverType name).Only R := by
  rw [varType]
  split_ifs <;> simp [nameType_only hline, memberType_only hline]

theorem indexedType_only (vars : Vars) (receiver : Expr) (receiverType : Ty) (name : String) :
    (cx.indexedType vars line receiver receiverType name).Only R := by
  rw [indexedType]
  split_ifs <;> simp [variableType_only hline, receiverField_only hline]

theorem elementType_only (name : String) (base : Ty) :
    (cx.elementType line name base).Only R := by
  rw [elementType]
  split_ifs <;> simp [refuse_only hline]

theorem receiverClass_only (receiver : Expr) (receiverType : Ty) (method : String) :
    (cx.receiverClass line receiver receiverType method).Only R := by
  rw [receiverClass]
  split_ifs <;> simp [report_only hline]

theorem objectType_only (className : String) : (cx.objectType line className).Only R := by
  rw [objectType]
  split_ifs <;> simp [refuse_only hline]

theorem castType_only (target operandType : Ty) :
    (cx.castType line target operandType).Only R := by
  simp only [castType]
  split_ifs <;> simp [refuse_only hline]

theorem targetType_only (vars : Vars) (qualifier name : String) :
    (cx.targetType vars line qualifier name).Only R := by
  rw [targetType]
  split_ifs
  · exact variableType_only hline vars name
  · exact fieldType_only hline cx.self name
  · split <;> simp [fieldType_only hline]
  · exact refuse_only hline _ nofun

theorem targetElement_only (name : String) (target : Ty) :
    (cx.targetElement line name target).Only R := by
  rw [targetElement]
  split_ifs <;> simp [require_only (.inr hline)]

theorem binaryType_only (op : BinaryOp) (left right : Ty) :
    (cx.binaryType line op left right).Only R := by
  rw [binaryType]
  split
  · split_ifs <;> simp [refuse_only hline]
  all_goals simp [refuse_only hline, require_only (.inr hline)]

theorem unaryType_only (op : UnaryOp) (storage : Bool) (operand : Ty) :
    (cx.unaryType line op storage operand).Only R := by
  rw [unaryType.eq_def]
  split <;> (try split_ifs) <;> simp [refuse_only hline]

theorem binding_only (locals : ScopeStack Symbol) (kind : SymbolKind) (name : String)
    (type : Ty) : (cx.binding locals line kind name type).Only R := by
  rw [binding]
  split_ifs <;> simp [report_only hline]

theorem initialized_only (name : String) (bound : Option Symbol) (initType : Ty) :
    (cx.initialized line name bound initType).Only R := by
  cases bound with
  | none => exact Reported.only_pure ()
  | some s =>
    simp only [initialized]
    split_ifs <;> simp [report_only hline, require_only (.inr hline)]

end Rules

/-! ### Rules that report at a part -/

theorem indexed_only {index : Expr} {t : Ty} (h : t.isError = true ∨ cx.Permits R index.line) :
    (cx.indexed index t).Only R :=
  require_only (h.imp_left fun he => (Ty.fits_of_isError he).1) _ nofun

theorem condition_only {e : Expr} {t : Ty} (h : t.isError = true ∨ cx.Permits R e.line)
    (place : Conditional) : (cx.condition place e t).Only R :=
  require_only (h.imp_left fun he => (Ty.fits_of_isError he).2.1) _ nofun

theorem assigned_only {value : Expr} {t : Ty} (h : t.isError = true ∨ cx.Permits R value.line)
    (target : Ty) (name : String) : (cx.assigned target value t name).Only R := by
  rw [assigned]
  split_ifs with hvoid
  · refine report_only (h.resolve_left fun he => ?_) _ nofun
    rw [(Ty.fits_of_isError he).2.2.1] at hvoid
    cases hvoid
  · exact require_only (h.imp_left fun he => cx.table.accepts_of_isError target he) _ nofun

theorem arrayType_only (hline : cx.Permits R line) {size : Expr} {t : Ty}
    (h : t.isError = true ∨ cx.Permits R size.line) (elemName : String) :
    (cx.arrayType line elemName size t).Only R := by
  simp only [arrayType, Reported.only_bind]
  exact ⟨require_only (.inr hline) _ nofun,
    require_only (h.imp_left fun he => (Ty.fits_of_isError he).1) _ nofun, Reported.only_pure _⟩

theorem instanceOfType_only (hline : cx.Permits R line) {operand : Expr} {t : Ty}
    (h : t.isError = true ∨ cx.Permits R operand.line) (target : Ty) :
    (cx.instanceOfType line target operand t).Only R := by
  simp only [instanceOfType, Reported.only_bind]
  refine ⟨?_, require_only (h.imp_left fun he => ?_) _ nofun, Reported.only_pure _⟩
  · rw [askedFor]
    split_ifs <;> simp [report_only hline, require_only (.inr hline)]
  · obtain ⟨-, -, hvoid, hprimitive⟩ := Ty.fits_of_isError he
    simp [hvoid, hprimitive]

theorem argument_only {arg : Expr} {t : Ty} (h : t.isError = true ∨ cx.Permits R arg.line)
    (method : String) (position : Nat) (param : Ty) :
    (cx.argument method position arg t param).Only R := by
  rcases h with he | h
  · have hvoid := (Ty.fits_of_isError he).2.2.1
    simp [argument, hvoid, he]
  · rw [argument]
    split_ifs <;> simp [report_only h]

theorem arguments_only {args : List (Expr × Ty)}
    (h : ∀ a ∈ args, a.2.isError = true ∨ cx.Permits R a.1.line) (method : String) (position : Nat)
    (params : List Ty) : (cx.arguments method position args params).Only R := by
  induction args generalizing position params with
  | nil => simp [arguments]
  | cons a args ih =>
    cases params with
    | nil => simp [arguments]
    | cons param params =>
      simp only [arguments, Reported.only_bind]
      exact ⟨argument_only (h a List.mem_cons_self) method position param,
        ih (fun b hb => h b (List.mem_cons_of_mem a hb)) _ params, Reported.only_pure _⟩

theorem callType_only (hline : cx.Permits R line) {args : List (Expr × Ty)}
    (h : ∀ a ∈ args, a.2.isError = true ∨ cx.Permits R a.1.line) (receiver : Option ClassInfo)
    (method : String) : (cx.callType line receiver method args).Only R := by
  cases receiver with
  | none => simp [callType]
  | some owner =>
    simp only [callType]
    split
    · exact refuse_only hline _ nofun
    · split_ifs <;> simp [refuse_only hline, arguments_only h]

end Context

/-- What was found about a part: it is reported in the right place, and a missing part has the error
type. -/
def Context.PartFound (cx : Context) (R : Located TypingProblem → Prop) (part : Expr)
    (j : Judged Ty) : Prop :=
  j.Only R ∧ (j.value.isError = true ∨ cx.Permits R part.line)

namespace Context

variable {cx : Context} {R : Located TypingProblem → Prop}

theorem args_found {args : List Expr} {found : List (Judged Ty)}
    (h : List.Forall₂ (cx.PartFound R) args found) :
    (Reported.forEach found id).Only R ∧
      ∀ a ∈ args.zip (Reported.forEach found id).value,
        a.2.isError = true ∨ cx.Permits R a.1.line := by
  induction h with
  | nil => simp [Reported.forEach, Reported.Only]
  | cons hfirst _ ih =>
    obtain ⟨hstands, hargs⟩ := ih
    refine ⟨?_, List.forall_mem_cons.mpr ⟨hfirst.2, hargs⟩⟩
    intro r hr
    rcases List.mem_append.mp hr with hr | hr
    · exact hfirst.1 r hr
    · exact hstands r hr

theorem judgement_only {e : Expr} (he : cx.Permits R e.line) {found : List (Judged Ty)}
    (h : List.Forall₂ (cx.PartFound R) e.parts found) (vars : Vars) (storage : Bool) :
    (cx.judgement vars storage e found).Only R := by
  cases e with
  | absent | int | bool | str => simp [judgement]
  | newObject site className =>
    simp only [judgement, Reported.only_bind]
    exact ⟨objectType_only he _, Reported.only_pure _⟩
  | dispatch site receiver method args =>
    obtain ⟨first, rest, hfirst, hrest, rfl⟩ := List.forall₂_cons_left_iff.mp h
    obtain ⟨hreports, hargs⟩ := args_found hrest
    simp only [judgement, Reported.only_bind]
    exact ⟨hfirst.1, receiverClass_only he _ _ _, hreports, callType_only he hargs _ _,
      Reported.only_pure _⟩
  | var site receiver name =>
    obtain ⟨first, rest, hfirst, -, rfl⟩ := List.forall₂_cons_left_iff.mp h
    simp only [judgement, Reported.only_bind]
    exact ⟨hfirst.1, varType_only he _ _ _ _, Reported.only_pure _⟩
  | newArray site elemName size =>
    obtain ⟨first, rest, hfirst, -, rfl⟩ := List.forall₂_cons_left_iff.mp h
    simp only [judgement, Reported.only_bind]
    exact ⟨hfirst.1, arrayType_only he hfirst.2 _, Reported.only_pure _⟩
  | instanceOf site operand target =>
    obtain ⟨first, rest, hfirst, -, rfl⟩ := List.forall₂_cons_left_iff.mp h
    simp only [judgement, Reported.only_bind]
    exact ⟨hfirst.1, instanceOfType_only he hfirst.2 _, Reported.only_pure _⟩
  | cast site target operand =>
    obtain ⟨first, rest, hfirst, -, rfl⟩ := List.forall₂_cons_left_iff.mp h
    simp only [judgement, Reported.only_bind]
    exact ⟨hfirst.1, castType_only he _ _⟩
  | assign site qualifier name value =>
    obtain ⟨first, rest, hfirst, -, rfl⟩ := List.forall₂_cons_left_iff.mp h
    simp only [judgement, Reported.only_bind]
    exact ⟨targetType_only he _ _ _, hfirst.1, assigned_only hfirst.2 _ _,
      Reported.only_pure _⟩
  | unary site op trailing operand =>
    obtain ⟨first, rest, hfirst, -, rfl⟩ := List.forall₂_cons_left_iff.mp h
    simp only [judgement, Reported.only_bind]
    exact ⟨hfirst.1, unaryType_only he _ _ _, Reported.only_pure _⟩
  | element site receiver name index =>
    obtain ⟨first, rest, hfirst, hrest, rfl⟩ := List.forall₂_cons_left_iff.mp h
    obtain ⟨second, rest, hsecond, -, rfl⟩ := List.forall₂_cons_left_iff.mp hrest
    simp only [judgement, Reported.only_bind]
    exact ⟨hfirst.1, indexedType_only he _ _ _ _, hsecond.1, indexed_only hsecond.2,
      elementType_only he _ _, Reported.only_pure _⟩
  | assignElement site qualifier name index value =>
    obtain ⟨first, rest, hfirst, hrest, rfl⟩ := List.forall₂_cons_left_iff.mp h
    obtain ⟨second, rest, hsecond, -, rfl⟩ := List.forall₂_cons_left_iff.mp hrest
    simp only [judgement, Reported.only_bind]
    exact ⟨targetType_only he _ _ _, hfirst.1, indexed_only hfirst.2,
      targetElement_only he _ _, hsecond.1, assigned_only hsecond.2 _ _,
      Reported.only_pure _⟩
  | binary site op left right =>
    obtain ⟨first, rest, hfirst, hrest, rfl⟩ := List.forall₂_cons_left_iff.mp h
    obtain ⟨second, rest, hsecond, -, rfl⟩ := List.forall₂_cons_left_iff.mp hrest
    simp only [judgement, Reported.only_bind]
    exact ⟨hfirst.1, hsecond.1, binaryType_only he _ _ _, Reported.only_pure _⟩

end Context

/-- The step reports only what has the property `R`, and its value has the property `Q`. -/
def Pinned (R : Located TypingProblem → Prop) {σ α : Type} (m : StateT σ Judged α)
    (Q : α → Prop) : Prop :=
  ∀ s, (m s).Only R ∧ Q (m s).value.1

namespace Pinned

variable {R : Located TypingProblem → Prop} {σ α β : Type}

theorem bind {m : StateT σ Judged α} {f : α → StateT σ Judged β} {Q : α → Prop} {Q' : β → Prop}
    (hm : Pinned R m Q) (hf : ∀ a, Q a → Pinned R (f a) Q') : Pinned R (m >>= f) Q' := by
  intro s
  obtain ⟨hfirst, hQ⟩ := hm s
  obtain ⟨hrest, hQ'⟩ := hf _ hQ (m s).value.2
  refine ⟨?_, hQ'⟩
  rw [Reported.Only, Step.reports_bind, List.forall_mem_append]
  exact ⟨hfirst, hrest⟩

theorem judge {j : Judged α} (hj : j.Only R) :
    Pinned R (liftM j : StateT σ Judged α) fun _ => True := by
  refine fun s => ⟨?_, trivial⟩
  rw [Reported.Only, Step.reports_lift]
  exact hj

theorem ofQuiet {m : StateT σ Judged α} (h : ∀ s, (m s).reports = []) :
    Pinned R m fun _ => True := by
  refine fun s => ⟨fun r hr => ?_, trivial⟩
  rw [h s] at hr
  cases hr

variable {cx : Context}

theorem findings {vars : Vars} {es : List Expr}
    (h : ∀ e ∈ es, Pinned R (cx.infer vars e) fun t => t.isError = true ∨ cx.Permits R e.line)
    (n : Notes) : List.Forall₂ (cx.PartFound R) es (cx.findings vars es n).1 := by
  induction es generalizing n with
  | nil => exact .nil
  | cons e es ih =>
    exact .cons (h e List.mem_cons_self n) (ih (fun p hp => h p (List.mem_cons_of_mem e hp)) _)

theorem infer {e : Expr} (on : Tree.All (Node.On (cx.Permits R)) e.trees) (vars : Vars) :
    Pinned R (cx.infer vars e) fun t => t.isError = true ∨ cx.Permits R e.line := by
  induction e using Expr.parts_induction with
  | step e ih =>
    by_cases he : e = .absent
    · rw [he, Context.infer]
      exact fun n => ⟨Reported.only_pure _, .inl rfl⟩
    obtain ⟨hnode, hparts⟩ := Expr.all_parts he on
    have hline : cx.Permits R e.line := hnode
    intro n
    have hfound := findings (fun p hp => ih p hp (hparts p hp)) n
    rw [Context.infer_eq he]
    exact ⟨Context.judgement_only hline hfound vars _, .inr hline⟩

theorem declare {cx : MethodContext} {line : Int} (hline : cx.Permits R line) (kind : SymbolKind)
    (name : String) (type : Ty) :
    Pinned R (cx.declare line kind name type) fun _ => True := by
  refine (ofQuiet fun _ => rfl).bind fun s _ => ?_
  refine (judge (Context.binding_only hline s.locals kind name type)).bind fun bound _ => ?_
  cases bound with
  | none => exact ofQuiet fun _ => rfl
  | some v => exact ofQuiet fun _ => rfl

theorem value {cx : MethodContext} {e : Expr}
    (on : Tree.All (Node.On (cx.Permits R)) e.trees) :
    Pinned R (cx.value e) fun t => t.isError = true ∨ cx.Permits R e.line := by
  intro s
  obtain ⟨honly, ht⟩ := infer on (s.locals :: cx.self.varChain) s.notes
  exact ⟨Reported.only_bind.mpr ⟨honly, Reported.only_pure _⟩, ht⟩

def relation (R : Located TypingProblem → Prop) : StepRelation where
  Holds := fun m _ _ Q => Pinned R m Q
  skip := ofQuiet fun _ => rfl
  bind := bind
  loop := fun _ hm => (ofQuiet fun _ => rfl).bind fun _ _ => hm.bind fun _ _ => ofQuiet fun _ => rfl
  scope := fun hm => (ofQuiet fun _ => rfl).bind fun _ _ => hm.bind fun _ _ => ofQuiet fun _ => rfl

end Pinned

/-! ### Statements and members -/

theorem MethodContext.returnedValue_only {cx : MethodContext} {R : Located TypingProblem → Prop}
    {line : Int} (hline : cx.Permits R line) (t : Ty) : (cx.returnedValue line t).Only R := by
  rw [returnedValue]
  split_ifs
  · exact Context.report_only hline _ nofun
  · exact Context.report_only hline _ nofun
  · exact Context.require_only (.inr hline) _ nofun

theorem Context.fieldInitialized_only {cx : Context} {R : Located TypingProblem → Prop} {f : Field}
    (hline : cx.Permits R f.line) (t : Ty) : (cx.fieldInitialized f t).Only R := by
  rw [fieldInitialized]
  split_ifs
  · exact report_only hline _ nofun
  · exact require_only (.inr hline) _ nofun

namespace Pinned

variable {R : Located TypingProblem → Prop}

theorem relates (cx : MethodContext)
    (stray : ∀ line, cx.Permits R line → R ⟨cx.self.decl.file, line, .breakOutsideLoop⟩) :
    (relation R).Relates cx cx (Node.On (cx.Permits R))
      (fun e t => t.isError = true ∨ cx.Permits R e.line) fun _ => True where
  value := value
  judgedCondition := fun ht => judge (Context.condition_only ht _)
  declare := fun hline => declare hline _ _ _
  initialized := fun hline _ _ => judge (Context.initialized_only hline _ _ _)
  statement := fun hline => judge (Context.require_only (.inr hline) _ nofun)
  breakLoop := fun {line} hline => by
    rw [MethodContext.check]
    refine (ofQuiet fun _ => rfl).bind fun s _ => judge ?_
    rw [Context.require]
    split_ifs
    · exact Reported.only_pure ()
    · exact Reported.only_report.mpr (stray line hline)
  returned := fun hline => judge (Context.require_only (.inr hline) _ nofun)
  returnedValue := fun hline _ => judge (MethodContext.returnedValue_only hline _)
  formal := fun hline => declare hline _ _ _

variable {cx : Context}
  (stray : ∀ line, cx.Permits R line → R ⟨cx.self.decl.file, line, .breakOutsideLoop⟩)
include stray

theorem checkedMember {m : Member} (on : Tree.All (Node.On (cx.Permits R)) [m.tree]) :
    Pinned R (cx.checkedMember m) fun _ => True := by
  cases m with
  | field f =>
    obtain ⟨hline, hinit⟩ := Tree.All.node.mp on
    exact (infer hinit _).bind fun t _ => judge (Context.fieldInitialized_only hline t)
  | method m =>
    have hbody : Pinned R (do
        (cx.ofMethod m).declareFormals m.formals
        (cx.ofMethod m).checkAll m.body) fun _ => True :=
      (relates (cx.ofMethod m) stray).method on
    intro notes
    obtain ⟨honly, -⟩ := hbody ⟨notes, ScopeStack.empty.enter, []⟩
    exact ⟨Reported.only_bind.mpr ⟨honly, Reported.only_pure _⟩, trivial⟩

theorem checkedMembers {ms : List (Option Member)}
    (on : ∀ m, some m ∈ ms → Tree.All (Node.On (cx.Permits R)) [m.tree]) :
    Pinned R (cx.checkedMembers ms) fun _ => True :=
  Context.checkedMembers_related (P := fun m _ _ => Pinned R m fun _ => True)
    (ofQuiet fun _ => rfl) (fun hm hk => hm.bind fun _ _ => hk) cx cx
    fun m hm => checkedMember stray (on m hm)

end Pinned

theorem Context.checkedMembers_stands {cx : Context} {L : Int → Prop} {ms : List (Option Member)}
    (on : ∀ m, some m ∈ ms → Tree.All (Node.On L) [m.tree]) (n : Notes) :
    (cx.checkedMembers ms n).Stands cx.self.decl.file L := by
  have hpermits : ∀ line, L line →
      cx.Permits (fun r => r.file = cx.self.decl.file ∧ L r.line) line :=
    fun _ hline _ _ => ⟨rfl, hline⟩
  have hstray : ∀ line, cx.Permits (fun r => r.file = cx.self.decl.file ∧ L r.line) line →
      cx.self.decl.file = cx.self.decl.file ∧ L line :=
    fun _ hline => hline .notAStatement nofun
  exact (Pinned.checkedMembers hstray (fun m hm node hnode =>
    (on m hm node hnode).mono hpermits) n).1

/-! ### Links and members -/

theorem Registry.link_stands (r : Registry) (c : Registered) :
    (r.link c).Stands c.decl.file (· = c.decl.line) := by
  rw [Registry.link]
  split <;> simp

theorem Members.declareAll_stands {L : Int → Prop} {c : ClassNode} {ms : List (Option Member)}
    (on : ∀ m, some m ∈ ms → Tree.All (Node.On L) [m.tree]) (m : Members) (h : Hierarchy)
    (above : List Members) : (m.declareAll h c above ms).Stands c.decl.file L := by
  have hattempt : ∀ (m : Members) (line : Int) (outcome : Except MemberProblem Members), L line →
      (Reported.attempt m c.decl.file line outcome).Stands c.decl.file L := by
    intro m line outcome hline
    cases outcome with
    | ok m' => exact Reported.only_pure m'
    | error problem => simp [Reported.attempt, hline]
  induction ms generalizing m with
  | nil => exact Reported.only_pure m
  | cons o ms ih =>
    have hrest := ih fun member hm => on member (List.mem_cons_of_mem o hm)
    cases o with
    | none => exact hrest m
    | some member =>
      have hline := (on member List.mem_cons_self)
      rw [Members.declareAll]
      refine Reported.only_bind.mpr ⟨?_, hrest _⟩
      cases member with
      | field f => exact hattempt m f.line _ (Tree.All.node.mp hline).1
      | method d => exact hattempt m d.line _ (Tree.All.node.mp hline).1

end ClassCheck
