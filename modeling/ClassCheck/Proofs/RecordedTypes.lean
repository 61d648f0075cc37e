import ClassCheck.Proofs.CheckSteps
import ClassCheck.Proofs.Judgements
import ClassCheck.Proofs.PartsFirst

/-! Which types are noted. Every step of typing keeps the notes and the variables in sight within an
admissible set of types, as long as it reports nothing or the set admits errors. -/

namespace ClassCheck

def Notes.Within (n : Notes) (T : Ty → Prop) : Prop := ∀ e t, n.typeOf? e = some t → T t

theorem Notes.Within.empty (T : Ty → Prop) : Notes.empty.Within T := by
  intro e t h
  cases h

theorem Notes.Within.settled {n : Notes} {T : Ty → Prop} (hn : n.Within T) (e : Expr) {t : Ty}
    (ht : T t) : T (n.settled e t) := by
  rw [Notes.settled]
  cases hold : n.typeOf? e with
  | none => exact ht
  | some old => exact hn e old hold

theorem Notes.Within.record {n : Notes} {T : Ty → Prop} (hn : n.Within T) (e : Expr) {t : Ty}
    (ht : T t) : (n.record e t).Within T := by
  intro x u hx
  rw [typeOf?_record] at hx
  split at hx
  · cases hx
    exact hn.settled e ht
  · exact hn x u hx

theorem Notes.Within.conclude {n : Notes} {T : Ty → Prop} (hn : n.Within T) (e : Expr)
    {o : Context.CastOutcome} (ho : T o.type) :
    (n.conclude e o).2.Within T ∧ T (n.conclude e o).1 := by
  have hmark : (n.mark e o.upcast).Within T := by
    cases o.upcast with
    | none => exact hn
    | some up => exact fun y t hy => hn y t hy
  exact ⟨hmark.record e ho, hmark.settled e ho⟩

/-! ### Judgements -/

def Expr.written : Expr → List Ty
  | .newArray _ elemName _ => [(Ty.plain elemName).arrayOf]
  | .cast _ target _ => [target]
  | _ => []

namespace Gives

variable {T : Ty → Prop} {α β : Type}

theorem pure {a : α} {Q : α → Prop} (ha : Q a) : Gives T (Pure.pure a) Q := fun _ => ha

theorem any (j : Judged α) : Gives T j fun _ => True := fun _ => trivial

theorem bind {j : Judged α} {f : α → Judged β} {Q : α → Prop} {R : β → Prop} (hj : Gives T j Q)
    (hf : ∀ a, Q a → Gives T (f a) R) : Gives T (j >>= f) R := by
  intro h
  rw [Reported.reports_bind, List.append_eq_nil_iff] at h
  exact hf _ (hj (h.imp_right And.left)) (h.imp_right And.right)

end Gives

/-- The judgement on an expression gives a type of the set, if its parts have such types. -/
theorem Context.Hosts.judgement_gives {cx : Context} {T : Ty → Prop} (hosts : cx.Hosts T)
    {vars : Vars} (hv : ∀ t ∈ vars, t.All fun s => T s.type) {e : Expr} (he : e ≠ .absent)
    (hwritten : ∀ t ∈ e.written, cx.table.knows t = true → T t) {found : List (Judged Ty)}
    (hfound : ∀ i p, e.parts[i]? = some p → p.isAbsent = false → T (finding found i).value)
    (storage : Bool) :
    Gives T (cx.judgement vars storage e found) fun o => T o.type := by
  have hpart : ∀ i p, e.parts[i]? = some p →
      Gives T (finding found i) fun t => p.isAbsent = false → T t := fun i p hp _ => hfound i p hp
  cases e with
  | absent => exact absurd rfl he
  | int => exact .pure hosts.int
  | bool => exact .pure hosts.boolean
  | str => exact .pure hosts.string
  | var site receiver name =>
    refine (hpart 0 receiver rfl).bind fun r hr => ?_
    exact (hosts.varType_gives hv hr _ _).bind fun t ht => .pure ht
  | element site receiver name index =>
    refine (hpart 0 receiver rfl).bind fun r hr => ?_
    refine (hosts.indexedType_gives hv hr _ _).bind fun base hb => ?_
    refine (Gives.any _).bind fun _ _ => (Gives.any _).bind fun _ _ => ?_
    exact (hosts.elementType_gives hb _ _).bind fun t ht => .pure ht
  | dispatch site receiver method args =>
    refine (hpart 0 receiver rfl).bind fun r hr => ?_
    refine (hosts.receiverClass_gives hr _ _).bind fun owner ho => (Gives.any _).bind fun _ _ => ?_
    exact (hosts.callType_gives ho.1 ho.2 _ _ _).bind fun t ht => .pure ht
  | newObject site className => exact (hosts.objectType_gives _ _).bind fun t ht => .pure ht
  | newArray site elemName size =>
    have helem := hwritten _ List.mem_cons_self
    refine (Gives.any _).bind fun _ _ => ?_
    exact (arrayType_gives helem _ _ _).bind fun t ht => .pure ht
  | instanceOf site operand target =>
    refine (Gives.any _).bind fun _ _ => ?_
    exact (hosts.instanceOfType_gives _ _ _ _).bind fun t ht => .pure ht
  | cast site target operand =>
    have htarget := hwritten target List.mem_cons_self
    exact (Gives.any _).bind fun _ _ => castType_gives htarget _ _
  | assign site qualifier name value =>
    refine (hosts.targetType_gives hv _ _ _).bind fun target ht => ?_
    exact (Gives.any _).bind fun _ _ => (Gives.any _).bind fun _ _ => .pure ht
  | assignElement site qualifier name index value =>
    refine (hosts.targetType_gives hv _ _ _).bind fun target ht => ?_
    refine (Gives.any _).bind fun _ _ => (Gives.any _).bind fun _ _ => ?_
    refine (hosts.targetElement_gives ht _ _).bind fun elem he => ?_
    exact (Gives.any _).bind fun _ _ => (Gives.any _).bind fun _ _ => .pure he
  | binary site op left right =>
    refine (Gives.any _).bind fun _ _ => (Gives.any _).bind fun _ _ => ?_
    exact (hosts.binaryType_gives _ _ _ _).bind fun t ht => .pure ht
  | unary site op trailing operand =>
    refine (Gives.any _).bind fun _ _ => ?_
    exact (hosts.unaryType_gives _ _ _ _).bind fun t ht => .pure ht

/-! ### Steps -/

/-- The step `m` keeps the invariant `I` and ends in a value with the property `Q`, unless it
reports something and errors are not admitted. -/
def Keeps (T : Ty → Prop) {σ α : Type} (I : σ → Prop) (m : StateT σ Judged α) (Q : α → Prop) :
    Prop :=
  ∀ s, I s → T .error ∨ (m s).reports = [] → I (m s).value.2 ∧ Q (m s).value.1

namespace Keeps

variable {T : Ty → Prop} {σ α β : Type} {I : σ → Prop}

theorem bind {m : StateT σ Judged α} {f : α → StateT σ Judged β} {Q : α → Prop} {R : β → Prop}
    (hm : Keeps T I m Q) (hf : ∀ a, Q a → Keeps T I (f a) R) : Keeps T I (m >>= f) R := by
  intro s hs h
  rw [Step.reports_bind, List.append_eq_nil_iff] at h
  obtain ⟨hs', hQ⟩ := hm s hs (h.imp_right And.left)
  exact hf _ hQ _ hs' (h.imp_right And.right)

theorem pure {a : α} {Q : α → Prop} (ha : Q a) :
    Keeps T I (Pure.pure a : StateT σ Judged α) Q :=
  fun _ hs _ => ⟨hs, ha⟩

theorem lift {j : Judged α} {Q : α → Prop} (hj : Gives T j Q) :
    Keeps T I (liftM j : StateT σ Judged α) Q := by
  intro s hs h
  rw [Step.reports_lift] at h
  exact ⟨hs, hj h⟩

theorem judge (j : Judged Unit) : Keeps T I (liftM j : StateT σ Judged Unit) fun _ => True :=
  lift fun _ => trivial

theorem get : Keeps T I (MonadState.get : StateT σ Judged σ) fun _ => True :=
  fun _ hs _ => ⟨hs, trivial⟩

theorem ofModify {f : σ → σ} (hf : ∀ s, I s → I (f s)) :
    Keeps T I (modify f : StateT σ Judged Unit) fun _ => True :=
  fun s hs _ => ⟨hf s hs, trivial⟩

theorem findings {cx : Context} {vars : Vars} {es : List Expr} {Q : Expr → Ty → Prop}
    (h : ∀ e ∈ es, Keeps T (fun n : Notes => n.Within T) (cx.infer vars e) (Q e)) {n : Notes}
    (hn : n.Within T) (quiet : ∀ j ∈ (cx.findings vars es n).1, T .error ∨ j.reports = []) :
    (cx.findings vars es n).2.Within T ∧
      ∀ i p, es[i]? = some p → Q p (Context.finding (cx.findings vars es n).1 i).value := by
  induction es generalizing n with
  | nil => exact ⟨hn, by simp⟩
  | cons e es ih =>
    obtain ⟨hfirst, hrest⟩ := List.forall_mem_cons.mp quiet
    obtain ⟨hn', hQ⟩ := h e List.mem_cons_self n hn hfirst
    obtain ⟨hend, hall⟩ := ih (fun x hx => h x (List.mem_cons_of_mem e hx)) hn' hrest
    refine ⟨hend, fun i p hp => ?_⟩
    cases i with
    | zero =>
      cases hp
      exact hQ
    | succ i => exact hall i p hp

theorem infer {cx : Context} (serves : cx.Serves T) {vars : Vars}
    (hv : ∀ t ∈ vars, t.All fun s => T s.type) (e : Expr) :
    Keeps T (fun n : Notes => n.Within T) (cx.infer vars e) fun t =>
      e.isAbsent = false → T t := by
  induction e using Expr.parts_induction with
  | step e ih =>
    by_cases he : e = .absent
    · rw [he, Context.infer]
      exact pure (by simp [Expr.isAbsent])
    intro n hn h
    rw [Context.infer_eq he] at h ⊢
    have hquiet : ∀ j ∈ (cx.findings vars e.parts n).1, T .error ∨ j.reports = [] := by
      intro j hj
      refine h.imp_right fun hnil => List.subset_nil.mp ?_
      rw [← hnil]
      exact Context.reports_judgement (cx.length_findings vars e.parts n) j hj
    obtain ⟨hwithin, hfound⟩ := findings ih hn hquiet
    have hgiven := serves.hosts.judgement_gives hv he (fun t _ => serves.known t) hfound _ h
    obtain ⟨hend, ht⟩ := hwithin.conclude e hgiven
    exact ⟨hend, fun _ => ht⟩

end Keeps

structure BodyState.Within (s : BodyState) (T : Ty → Prop) : Prop where
  notes : s.notes.Within T
  locals : s.locals.All fun v => T v.type

theorem Context.binding_gives {cx : Context} {T : Ty → Prop} {type : Ty}
    (ht : cx.table.knows type = true → T type) (locals : ScopeStack Symbol) (line : Int)
    (kind : SymbolKind) (name : String) :
    Gives T (cx.binding locals line kind name type) fun bound =>
      ∀ s, bound = some s → T s.type := by
  rw [Context.binding]
  split_ifs with _ _ hknown
  · intro _ s hs
    cases hs
  · intro _ s hs
    cases hs
  · intro _ s hs
    cases hs
    exact ht hknown
  · intro h s hs
    cases hs
    exact h.resolve_right (by simp [Context.report])

namespace Keeps

def relation (T : Ty → Prop) : StepRelation where
  Holds := fun m _ _ Q => Keeps T (fun s : BodyState => s.Within T) m Q
  skip := pure trivial
  bind := bind
  loop := fun _ hm => (ofModify fun _ hs => ⟨hs.notes, hs.locals⟩).bind fun _ _ =>
    hm.bind fun _ _ => ofModify fun _ hs => ⟨hs.notes, hs.locals⟩
  scope := fun hm => (ofModify fun _ hs => ⟨hs.notes, hs.locals.enter⟩).bind fun _ _ =>
    hm.bind fun _ _ => ofModify fun _ hs => ⟨hs.notes, hs.locals.exit⟩

variable {T : Ty → Prop} {cx : MethodContext} (serves : cx.toContext.Serves T)
include serves

theorem value (e : Expr) :
    Keeps T (fun s : BodyState => s.Within T) (cx.value e) fun _ => True := by
  intro s hs h
  have hvars : ∀ t ∈ s.locals :: cx.self.varChain, t.All fun v => T v.type := by
    intro t ht
    rcases List.mem_cons.mp ht with rfl | ht
    · exact hs.locals
    · exact serves.vars _ serves.self_mem t ht
  obtain ⟨hn, -⟩ := infer serves hvars e s.notes hs.notes
    (h.imp_right fun hquiet => (List.append_eq_nil_iff.mp hquiet).1)
  exact ⟨⟨hn, hs.locals⟩, trivial⟩

theorem declare (line : Int) (kind : SymbolKind) (name : String) (type : Ty) :
    Keeps T (fun s : BodyState => s.Within T) (cx.declare line kind name type) fun _ => True := by
  intro s hs h
  have hbound := Context.binding_gives (serves.known type) s.locals line kind name
  simp only [MethodContext.declare, Step.reports_bind, Step.value_bind, Step.run_get,
    Step.value_lift, Step.reports_lift, List.nil_append, List.append_eq_nil_iff] at h ⊢
  have hgiven := hbound (h.imp_right And.left)
  cases hb : (cx.binding s.locals line kind name type).value with
  | none => exact ⟨hs, trivial⟩
  | some v => exact ⟨⟨hs.notes, hs.locals.add v.name (hgiven v hb)⟩, trivial⟩

theorem relates :
    (relation T).Relates cx cx (fun _ => True) (fun _ _ => True) fun _ => True where
  value := fun _ => value serves _
  judgedCondition := fun _ => judge _
  declare := fun _ => declare serves _ _ _ _
  initialized := fun _ _ _ => judge _
  statement := fun _ => judge _
  breakLoop := fun _ => by
    rw [MethodContext.check]
    exact get.bind fun _ _ => judge _
  returned := fun _ => judge _
  returnedValue := fun _ _ => judge _
  formal := fun _ => declare serves _ _ _ _

end Keeps

namespace Keeps

variable {T : Ty → Prop}

theorem checkedMember {cx : Context} (serves : cx.Serves T) (m : Member) :
    Keeps T (fun n : Notes => n.Within T) (cx.checkedMember m) fun _ => True := by
  cases m with
  | field f =>
    have hfields := serves.vars cx.self serves.self_mem
    exact (infer serves hfields f.init).bind fun _ _ => judge _
  | method m =>
    intro notes hn h
    have hcx : (cx.ofMethod m).toContext.Serves T := serves
    have hbody := (relates hcx).method (m := m) fun _ _ => trivial
    obtain ⟨hs, -⟩ := hbody ⟨notes, ScopeStack.empty.enter, []⟩
      ⟨hn, ScopeStack.All.empty_enter⟩
      (h.imp_right fun hquiet => (List.append_eq_nil_iff.mp hquiet).1)
    exact ⟨hs.notes, trivial⟩

theorem checkedClasses {t : ClassTable} {cs : List ClassInfo}
    (h : ∀ c ∈ cs, Context.Serves ⟨t, c⟩ T) :
    Keeps T (fun n : Notes => n.Within T) (t.checkedClasses cs) fun _ => True :=
  ClassTable.checkedClasses_related
    (P := fun m _ _ => Keeps T (fun n : Notes => n.Within T) m fun _ => True) (pure trivial)
    (fun hm hk => hm.bind fun _ _ => hk) fun c hc m _ => checkedMember (h c hc) m

end Keeps

end ClassCheck
