import ClassCheck.Proofs.CheckSteps
import ClassCheck.Proofs.PartsFirst

/-!
# Checks keep to their own expressions

What a check gives and reports depends on the notes about the expressions it visits, and it changes
the notes about no others. So the members of classes that share no expression can be checked in any
order, and each as if it were the only one.
-/

namespace ClassCheck

namespace Notes

def entry (n : Notes) (x : Expr) : Option Ty × Bool := (n.typeOf? x, n.isUpcast x)

theorem of_entry {n k : Notes} {x : Expr} (h : n.entry x = k.entry x) :
    n.typeOf? x = k.typeOf? x ∧ n.isUpcast x = k.isUpcast x :=
  ⟨congrArg Prod.fst h, congrArg Prod.snd h⟩

def AgreeOn (es : List Expr) (n k : Notes) : Prop := ∀ x ∈ es, n.entry x = k.entry x

theorem AgreeOn.mono {es fs : List Expr} {n k : Notes} (h : AgreeOn fs n k) (sub : es ⊆ fs) :
    AgreeOn es n k :=
  fun x hx => h x (sub hx)

theorem entry_conclude (n : Notes) (e : Expr) (o : Context.CastOutcome) (x : Expr) :
    (n.conclude e o).2.entry x =
      if x = e then (some (n.settled e o.type), o.upcast.getD (n.isUpcast e)) else n.entry x := by
  cases ho : o.upcast with
  | none =>
    by_cases hx : x = e <;> simp [conclude, mark, ho, entry, typeOf?_record, hx]
  | some up =>
    by_cases hx : x = e <;>
      simp [conclude, mark, ho, entry, typeOf?_record, isUpcast_markCast, settled, hx]

theorem settled_conclude (n : Notes) (e : Expr) (o : Context.CastOutcome) :
    (n.conclude e o).1 = n.settled e o.type := by
  cases ho : o.upcast <;> simp [conclude, mark, ho, settled]

theorem stores_congr {n k : Notes} {e : Expr}
    (h : ∀ x ∈ e.parts.flatMap Expr.visits, n.typeOf? x = k.typeOf? x) :
    n.stores e = k.stores e := by
  cases e with
  | unary site op trailing operand =>
    cases operand with
    | var site receiver name =>
      by_cases habsent : receiver = .absent
      · rw [habsent]
        rfl
      · have hreceiver : receiver ∈ (Expr.var site receiver name).visits := by
          rw [Expr.visits_eq_parts (by simp), Expr.parts, List.flatMap_singleton,
            Expr.visits_eq habsent]
          simp
        have htype := h receiver (by simpa [Expr.parts] using hreceiver)
        cases receiver with
        | absent => exact absurd rfl habsent
        | _ => simp [stores, isStorage, htype]
    | _ => rfl
  | _ => rfl

end Notes

/-- A step with what it reports as part of what it gives. -/
def Step.apart {σ π α : Type} (m : StateT σ (Reported π) α) (s : σ) : Reported π α × σ :=
  (⟨(m s).value.1, (m s).reports⟩, (m s).value.2)

/-- The step `m`, whose state holds notes and a rest, keeps to the notes about `es`. -/
structure Confined {σ ρ α : Type} (notes : σ → Notes) (rest : σ → ρ) (m : σ → α × σ)
    (es : List Expr) : Prop where
  frame : ∀ s, ∀ x ∉ es, (notes (m s).2).entry x = (notes s).entry x
  result : ∀ s s', rest s = rest s' → (notes s).AgreeOn es (notes s') →
    (m s).1 = (m s').1 ∧ rest (m s).2 = rest (m s').2 ∧
      (notes (m s).2).AgreeOn es (notes (m s').2)

namespace Confined

variable {σ ρ α β : Type} {notes : σ → Notes} {rest : σ → ρ}

theorem mono {m : σ → α × σ} {es fs : List Expr} (hm : Confined notes rest m es) (sub : es ⊆ fs) :
    Confined notes rest m fs where
  frame := fun s x hx => hm.frame s x fun hes => hx (sub hes)
  result := by
    intro s s' hrest hagree
    obtain ⟨hvalue, hrest', hafter⟩ := hm.result s s' hrest (hagree.mono sub)
    refine ⟨hvalue, hrest', fun x hx => ?_⟩
    by_cases hes : x ∈ es
    · exact hafter x hes
    · rw [hm.frame s x hes, hm.frame s' x hes, hagree x hx]

theorem andThen {m : σ → α × σ} {f : α → σ → β × σ} {es : List Expr}
    (hm : Confined notes rest m es) (hf : ∀ a, Confined notes rest (f a) es) :
    Confined notes rest (fun s => f (m s).1 (m s).2) es where
  frame := by
    intro s x hx
    rw [(hf _).frame _ x hx, hm.frame s x hx]
  result := by
    intro s s' hrest hagree
    obtain ⟨hvalue, hrest', hafter⟩ := hm.result s s' hrest hagree
    rw [hvalue]
    exact (hf _).result _ _ hrest' hafter

theorem map {m : σ → α × σ} {es : List Expr} (hm : Confined notes rest m es) (g : α → β) :
    Confined notes rest (fun s => (g (m s).1, (m s).2)) es where
  frame := hm.frame
  result := by
    intro s s' hrest hagree
    obtain ⟨hvalue, hafter⟩ := hm.result s s' hrest hagree
    exact ⟨congrArg g hvalue, hafter⟩

/-- A step that leaves the notes alone and acts on the rest is confined to nothing. -/
theorem of_rest {m : σ → α × σ} (hnotes : ∀ s, notes (m s).2 = notes s)
    (hrest : ∀ s s', rest s = rest s' → (m s).1 = (m s').1 ∧ rest (m s).2 = rest (m s').2) :
    Confined notes rest m [] where
  frame := fun s x _ => by rw [hnotes]
  result := fun s s' h _ => ⟨(hrest s s' h).1, (hrest s s' h).2, fun x hx => by simp at hx⟩

section Steps

open Step (apart)

theorem bind {m : StateT σ Judged α} {f : α → StateT σ Judged β} {es fs : List Expr}
    (hm : Confined notes rest (apart m) es) (hf : ∀ a, Confined notes rest (apart (f a)) fs) :
    Confined notes rest (apart (m >>= f)) (es ++ fs) := by
  have hjoined := (hm.mono (List.subset_append_left es fs)).andThen fun j =>
    ((hf j.value).mono (List.subset_append_right es fs)).map
      fun j' => (⟨j'.value, j.reports ++ j'.reports⟩ : Judged β)
  exact hjoined

theorem pure (a : α) : Confined notes rest (apart (Pure.pure a : StateT σ Judged α)) [] :=
  of_rest (fun _ => rfl) fun _ _ h => ⟨rfl, h⟩

theorem lift (j : Judged α) : Confined notes rest (apart (liftM j : StateT σ Judged α)) [] :=
  of_rest (fun _ => rfl) fun _ _ h => ⟨rfl, h⟩

theorem get_bind {f : σ → StateT σ Judged α} {es : List Expr}
    (hrest : ∀ s s', rest s = rest s' → f s = f s')
    (hf : ∀ s, Confined notes rest (apart (f s)) es) :
    Confined notes rest (apart (MonadState.get >>= f)) es where
  frame := fun s => (hf s).frame s
  result := by
    intro s s' h hagree
    have hsame := (hf s).result s s' h hagree
    have hstep : apart (MonadState.get >>= f) s' = apart (f s) s' := by
      rw [hrest s s' h]
      rfl
    rw [hstep]
    exact hsame

theorem modify {g : σ → σ} (hnotes : ∀ s, notes (g s) = notes s)
    (hrest : ∀ s s', rest s = rest s' → rest (g s) = rest (g s')) :
    Confined notes rest (apart (modify g : StateT σ Judged Unit)) [] :=
  of_rest hnotes fun s s' h => ⟨rfl, hrest s s' h⟩

end Steps

end Confined

abbrev Check.Confined {α : Type} (m : Check α) (es : List Expr) : Prop :=
  ClassCheck.Confined id (fun _ => ()) (Step.apart m) es

abbrev Body.Confined {α : Type} (m : Body α) (es : List Expr) : Prop :=
  ClassCheck.Confined BodyState.notes (fun s => (s.locals, s.loops)) (Step.apart m) es

namespace Confined

theorem findings {cx : Context} {vars : Vars} {es : List Expr}
    (h : ∀ e ∈ es, Check.Confined (cx.infer vars e) e.visits) :
    Confined id (fun _ => ()) (cx.findings vars es) (es.flatMap Expr.visits) := by
  induction es with
  | nil => exact of_rest (fun _ => rfl) fun _ _ _ => ⟨rfl, rfl⟩
  | cons e es ih =>
    have he := h e List.mem_cons_self
    have hes := ih fun x hx => h x (List.mem_cons_of_mem e hx)
    rw [List.flatMap_cons]
    exact (he.mono (List.subset_append_left _ _)).andThen fun j =>
      (hes.mono (List.subset_append_right _ _)).map (j :: ·)

theorem judged (cx : Context) (vars : Vars) {e : Expr} (he : e ≠ .absent)
    (found : List (Judged Ty)) :
    Confined id (fun _ => ()) (fun n =>
      let j := cx.judgement vars (n.stores e) e found
      ((⟨(n.conclude e j.value).1, j.reports⟩ : Judged Ty), (n.conclude e j.value).2))
      e.visits := by
  have hmem : e ∈ e.visits := by
    rw [Expr.visits_eq he]
    exact List.mem_cons_self
  constructor
  · intro n x hx
    have hne : x ≠ e := fun h => hx (h ▸ hmem)
    rw [id, Notes.entry_conclude, if_neg hne, id]
  · intro n k _ hagree
    have hstores : n.stores e = k.stores e := by
      apply Notes.stores_congr
      intro x hx
      have hin : x ∈ e.visits := by
        rw [Expr.visits_eq_parts he]
        exact List.mem_cons_of_mem e hx
      exact congrArg Prod.fst (hagree x hin)
    have htype : n.typeOf? e = k.typeOf? e := congrArg Prod.fst (hagree e hmem)
    have hup : n.isUpcast e = k.isUpcast e := congrArg Prod.snd (hagree e hmem)
    simp only [id, hstores, Notes.settled_conclude, Notes.settled, htype, true_and]
    intro x hx
    rw [Notes.entry_conclude, Notes.entry_conclude, Notes.settled, Notes.settled, htype, hup]
    split
    · rfl
    · exact hagree x hx

theorem infer (cx : Context) (vars : Vars) (e : Expr) :
    Check.Confined (cx.infer vars e) e.visits := by
  induction e using Expr.parts_induction with
  | step e ih =>
    by_cases he : e = .absent
    · rw [he, Context.infer, Expr.visits_absent]
      exact pure Ty.error
    · have hparts : e.parts.flatMap Expr.visits ⊆ e.visits := by
        rw [Expr.visits_eq_parts he]
        exact List.subset_cons_self _ _
      have hjoined := ((findings ih).mono hparts).andThen (judged cx vars he)
      convert hjoined using 1
      funext n
      rw [Step.apart, Context.infer_eq he]

theorem value (cx : MethodContext) (e : Expr) : Body.Confined (cx.value e) e.visits where
  frame := fun s => (infer cx.toContext (s.locals :: cx.self.varChain) e).frame s.notes
  result := by
    rintro ⟨n, locals, loops⟩ ⟨k, locals', loops'⟩ hrest hagree
    obtain ⟨rfl, rfl⟩ : locals = locals' ∧ loops = loops' := by simpa using hrest
    obtain ⟨hvalue, -, hafter⟩ :=
      (infer cx.toContext (locals :: cx.self.varChain) e).result n k rfl hagree
    refine ⟨?_, rfl, hafter⟩
    exact congrArg (fun j : Judged Ty => (⟨j.value, j.reports ++ []⟩ : Judged Ty)) hvalue

theorem declare (cx : MethodContext) (line : Int) (kind : SymbolKind) (name : String) (type : Ty) :
    Body.Confined (cx.declare line kind name type) [] := by
  refine get_bind (fun s s' h => ?_) fun s => (lift _).bind fun bound => ?_
  · rw [(Prod.mk.inj h).1]
  · cases bound with
    | none => exact pure none
    | some b =>
      have hadd : Body.Confined (Body.introduce b) [] :=
        modify (fun _ => rfl) fun s s' h => by simp_all
      exact hadd.bind fun _ => pure (some b)

theorem inLoop {m : Body Unit} {es : List Expr} (line : Int) (hm : Body.Confined m es) :
    Body.Confined (Body.inLoop line m) es := by
  have hopen : Body.Confined (Body.openLoop line) [] :=
    modify (fun _ => rfl) fun s s' h => by simp_all
  have hclose : Body.Confined Body.closeLoop [] :=
    modify (fun _ => rfl) fun s s' h => by simp_all
  simpa [Body.inLoop] using hopen.bind fun _ => hm.bind fun _ => hclose

theorem inScope {m : Body Unit} {es : List Expr} (hm : Body.Confined m es) :
    Body.Confined (Body.inScope m) es := by
  have hopen : Body.Confined Body.openScope [] :=
    modify (fun _ => rfl) fun s s' h => by simp_all
  have hclose : Body.Confined Body.closeScope [] :=
    modify (fun _ => rfl) fun s s' h => by simp_all
  simpa [Body.inScope] using hopen.bind fun _ => hm.bind fun _ => hclose

def property : StepProperty where
  Holds := Body.Confined
  skip := pure ()
  lift := lift
  bind := bind
  loop := inLoop
  scope := inScope

theorem met (cx : MethodContext) : property.Met cx where
  value := value cx
  declare := declare cx
  breakLoop := fun line => by
    rw [MethodContext.check]
    exact get_bind (fun s s' h => by rw [(Prod.mk.inj h).2]) fun _ => lift _

theorem checkedMethod (cx : Context) (m : Method) :
    Check.Confined (cx.checkedMethod m) (m.body.flatMap Stmt.visits) := by
  have hbody := (met (cx.ofMethod m)).method m
  constructor
  · intro n x hx
    exact hbody.frame ⟨n, ScopeStack.empty.enter, []⟩ x hx
  · intro n k _ hagree
    obtain ⟨hvalue, -, hafter⟩ := hbody.result ⟨n, ScopeStack.empty.enter, []⟩
      ⟨k, ScopeStack.empty.enter, []⟩ rfl hagree
    refine ⟨?_, rfl, hafter⟩
    exact congrArg (fun j : Judged Unit => (⟨(), j.reports ++ []⟩ : Judged Unit)) hvalue

theorem checkedMember (cx : Context) (m : Member) :
    Check.Confined (cx.checkedMember m) m.visits := by
  cases m with
  | field f =>
    rw [Context.checkedMember, Member.visits_field, ← List.append_nil f.init.visits]
    exact (infer cx cx.self.varChain f.init).bind fun _ => lift _
  | method m =>
    rw [Context.checkedMember, Member.visits_method]
    exact checkedMethod cx m

theorem checkedMembers (cx : Context) (ms : List (Option Member)) :
    Check.Confined (cx.checkedMembers ms) ((ms.filterMap id).flatMap Member.visits) :=
  Context.checkedMembers_related (P := fun m _ => Check.Confined m) (pure ())
    (fun hm hk => hm.bind fun _ => hk) cx cx fun m _ => checkedMember cx m

theorem checkedClasses (t : ClassTable) (cs : List ClassInfo) :
    Check.Confined (t.checkedClasses cs) (cs.flatMap fun c => c.decl.visits) :=
  ClassTable.checkedClasses_related (P := fun m _ => Check.Confined m) (pure ())
    (fun hm hk => hm.bind fun _ => hk) fun c _ m _ => checkedMember ⟨t, c⟩ m

theorem agree {m : Check Unit} {es : List Expr} (hm : Check.Confined m es) {n k : Notes}
    (hagree : n.AgreeOn es k) :
    (m n).reports = (m k).reports ∧ (m n).value.2.AgreeOn es (m k).value.2 := by
  obtain ⟨hvalue, -, hafter⟩ := hm.result n k rfl hagree
  exact ⟨(congrArg Reported.reports hvalue :), hafter⟩

theorem agree_after {m : Check Unit} {es fs : List Expr} (hm : Check.Confined m es)
    (hdisjoint : es.Disjoint fs) (n : Notes) : (m n).value.2.AgreeOn fs n :=
  fun x hx => hm.frame n x fun hes => hdisjoint hes hx

theorem checkedClasses_apart {t : ClassTable} {cs : List ClassInfo}
    (hapart : cs.Pairwise fun c d => c.decl.visits.Disjoint d.decl.visits) (n : Notes) :
    (t.checkedClasses cs n).reports =
        cs.flatMap (fun c => (Context.checkedMembers ⟨t, c⟩ c.decl.members n).reports) ∧
      ∀ c ∈ cs, (t.checkedClasses cs n).value.2.AgreeOn c.decl.visits
        (Context.checkedMembers ⟨t, c⟩ c.decl.members n).value.2 := by
  have hmembers : ∀ c : ClassInfo,
      Check.Confined (Context.checkedMembers ⟨t, c⟩ c.decl.members) c.decl.visits := by
    intro c
    rw [ClassDecl.visits_eq]
    exact checkedMembers ⟨t, c⟩ c.decl.members
  induction cs generalizing n with
  | nil =>
    rw [ClassTable.checkedClasses]
    exact ⟨rfl, by simp⟩
  | cons c cs ih =>
    obtain ⟨hfirst, hrest⟩ := List.pairwise_cons.mp hapart
    -- After the first class, the notes about the expressions of the others are untouched.
    set k := (Context.checkedMembers ⟨t, c⟩ c.decl.members n).value.2 with hk
    have hothers : ∀ d ∈ cs, k.AgreeOn d.decl.visits n :=
      fun d hd => (hmembers c).agree_after (hfirst d hd) n
    obtain ⟨hreports, hafter⟩ := ih hrest k
    rw [ClassTable.checkedClasses]
    constructor
    · rw [Step.reports_bind, ← hk, hreports, List.flatMap_cons]
      congr 1
      exact List.flatMap_congr fun d hd => ((hmembers d).agree (hothers d hd)).1
    · intro d hd
      rw [Step.value_bind, ← hk]
      rcases List.mem_cons.mp hd with rfl | hd
      · refine (checkedClasses t cs).agree_after ?_ k
        intro x hx hxd
        obtain ⟨e, he, hxe⟩ := List.mem_flatMap.mp hx
        exact hfirst e he hxd hxe
      · intro x hx
        rw [hafter d hd x hx, ((hmembers d).agree (hothers d hd)).2 x hx]

end Confined

end ClassCheck
