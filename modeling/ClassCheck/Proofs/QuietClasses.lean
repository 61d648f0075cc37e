import ClassCheck.Proofs.QuietBodies

/-!
# Classes that are checked without a report

The check of a list of classes is quiet exactly if every initial value and every method body in
them is well typed.
-/

namespace ClassCheck

open Step

def Member.Declared (p : Program) : Member → Prop
  | .field f => p.Known f.type
  | .method m => m.returnType = .void ∨ p.Known m.returnType

def Member.Ok (p : Program) (self : String) : Member → Prop
  | .field f => p.InitOk self [] f.type f.init
  | .method m => p.MethodOk self m

theorem Program.bodiesOk_iff {p : Program} {d : ClassDecl} :
    p.BodiesOk d ↔ ∀ m, some m ∈ d.members → m.Ok p d.name := by
  constructor
  · intro ok m hm
    cases m with
    | field f => exact ok.fields f (ClassDecl.mem_fields.mpr hm)
    | method m => exact ok.methods m (ClassDecl.mem_methods.mpr hm)
  · intro h
    exact ⟨fun f hf => h _ (ClassDecl.mem_fields.mp hf),
      fun m hm => h _ (ClassDecl.mem_methods.mp hm)⟩

theorem Covers.quietly_seq_iff {m m' : Check Unit} {es es' : List Expr} (covers : Covers id m es)
    (tidy : Tidy (es ++ es')) {n : Notes} (fresh : n.Fresh (es ++ es')) {P Q : Prop}
    (hm : Quietly m n () ↔ P) (hm' : ∀ n', n'.Fresh es' → (Quietly m' n' () ↔ Q)) :
    Quietly (m >>= fun _ => m') n () ↔ P ∧ Q := by
  constructor
  · intro h
    obtain ⟨n'', h⟩ := h
    obtain ⟨_, n', hfirst, hrest⟩ := yields_bind_iff.mp h
    exact ⟨hm.mp ⟨n', hfirst⟩, (hm' n' (covers.fresh hfirst tidy fresh)).mp ⟨n'', hrest⟩⟩
  · intro h
    obtain ⟨n', hfirst⟩ := hm.mpr h.1
    obtain ⟨n'', hrest⟩ := (hm' n' (covers.fresh hfirst tidy fresh)).mpr h.2
    exact ⟨n'', yields_bind_iff.mpr ⟨(), n', hfirst, hrest⟩⟩

theorem Tracks.start (p : Program) (n : Notes) :
    Tracks p .empty false ⟨n, ScopeStack.empty.enter, []⟩ where
  find := fun _ => rfl
  here := by
    intro x
    simp [Program.Locals.empty]
  known := by
    intro x t h
    cases h
  loops := rfl

namespace Context.Faithful

variable {cx : Context} {p : Program} (faithful : cx.Faithful p) {n : Notes}
include faithful

theorem fieldScene : Scene cx cx.self.varChain p [] where
  faithful := faithful
  known := by
    intro x t h
    cases h
  shows := by
    intro x hx t
    have hvar := faithful.var_iff _ faithful.self_mem x hx t
    simpa [Program.Visible] using hvar

theorem checkedField_iff {f : Field} (hknown : p.Known f.type) (tidy : Tidy f.init.visits)
    (fresh : n.Fresh f.init.visits) :
    Quietly (cx.checkedField f) n () ↔ p.InitOk cx.self.name [] f.type f.init := by
  have scene := faithful.fieldScene
  have hknows : cx.table.knows f.type = true := faithful.knows_iff.mpr hknown
  by_cases he : f.init = .absent
  · refine iff_of_true ⟨n, ?_⟩ (.inl he)
    have hquiet : cx.fieldInitialized f .error = pure () := by
      have haccepts : cx.table.accepts f.type .error = true := by
        simp [ClassTable.accepts, Ty.isError, Ty.error, Ty.plain]
      rw [Context.fieldInitialized, haccepts, hknows]
      rfl
    rw [Context.checkedField, he]
    exact yields_bind_iff.mpr ⟨.error, n, rfl, yields_lift_iff.mpr ⟨hquiet, rfl⟩⟩
  · have hquiet : ∀ t, p.Valid t →
        (cx.fieldInitialized f t = pure () ↔ p.Assignable f.type t) := by
      intro t ht
      rw [Context.fieldInitialized, hknows]
      exact faithful.fits_iff hknown ht
    have hnil : f.init.visits ++ [] = f.init.visits := List.append_nil _
    rw [Context.checkedField, Program.InitOk, or_iff_right he]
    refine (scene.agrees f.init he tidy).bind_iff (hnil.symm ▸ tidy) (hnil.symm ▸ fresh) ?_
    intro t n' _ htype _
    rw [quietly_lift_iff]
    exact hquiet t (scene.valid htype)

theorem checkedMethod_iff {m : Method} (hreturn : m.returnType = .void ∨ p.Known m.returnType)
    (shaped : Tree.All Node.Shaped (Stmt.treesOfAll m.body))
    (tidy : Tidy (m.body.flatMap Stmt.visits)) (fresh : n.Fresh (m.body.flatMap Stmt.visits)) :
    Quietly (cx.checkedMethod m) n () ↔ p.MethodOk cx.self.name m := by
  have hresult : (cx.ofMethod m).returnType = m.returnType :=
    if_pos (faithful.canReturn_iff.mpr hreturn)
  have faithful' : (cx.ofMethod m).toContext.Faithful p := faithful
  have hbody : Follows p false ((cx.ofMethod m).checkAll m.body) _ _ :=
    Checks.all tidy fun s hs => faithful'.checks (hresult.symm ▸ hreturn) s
      (Tree.All.of_stmts shaped hs) (tidy.of_mem hs) false
  have hfollows := Follows.seq ((Covers.met (cx.ofMethod m)).declareFormals m.formals) tidy
    (faithful'.follows_formals m.formals) hbody
  rw [hresult] at hfollows
  have tracks := Tracks.start p n
  constructor
  · intro h
    obtain ⟨n', h⟩ := h
    obtain ⟨⟨u, st⟩, hrun, -⟩ := Reported.bind_eq_pure_iff.mp h
    obtain ⟨Γ', ⟨Γ, hformals, hbody⟩, -⟩ := hfollows.sound tracks fresh hrun
    exact ⟨Γ, Γ', hformals, hbody⟩
  · intro h
    obtain ⟨Γ, Γ', hformals, hbody⟩ := h
    obtain ⟨st, hrun, -⟩ := hfollows.complete tracks fresh ⟨Γ, hformals, hbody⟩
    exact ⟨st.notes, Reported.bind_eq_pure_iff.mpr ⟨((), st), hrun, rfl⟩⟩

theorem checkedMember_iff {m : Member} (declared : m.Declared p)
    (shaped : Tree.All Node.Shaped [m.tree]) (tidy : Tidy m.visits) (fresh : n.Fresh m.visits) :
    Quietly (cx.checkedMember m) n () ↔ m.Ok p cx.self.name := by
  cases m with
  | field f =>
    rw [Member.visits_field] at tidy fresh
    exact faithful.checkedField_iff declared tidy fresh
  | method m =>
    rw [Member.visits_method] at tidy fresh
    have hbody := (Tree.All.append.mp (Tree.All.node.mp shaped).2).2
    exact faithful.checkedMethod_iff declared hbody tidy fresh

theorem checkedMembers_iff {ms : List (Option Member)}
    (declared : ∀ m, some m ∈ ms → m.Declared p)
    (shaped : ∀ m, some m ∈ ms → Tree.All Node.Shaped [m.tree])
    (tidy : Tidy ((ms.filterMap id).flatMap Member.visits))
    (fresh : n.Fresh ((ms.filterMap id).flatMap Member.visits)) :
    Quietly (cx.checkedMembers ms) n () ↔ ∀ m, some m ∈ ms → m.Ok p cx.self.name := by
  induction ms generalizing n with
  | nil => exact iff_of_true ⟨n, rfl⟩ fun m hm => absurd hm List.not_mem_nil
  | cons o ms ih =>
    have declared' := fun m hm => declared m (List.mem_cons_of_mem o hm)
    have shaped' := fun m hm => shaped m (List.mem_cons_of_mem o hm)
    cases o with
    | none =>
      refine (ih declared' shaped' tidy fresh).trans ?_
      simp
    | some m =>
      have hmem : some m ∈ some m :: ms := List.mem_cons_self
      have hrest := fun n' fresh' => ih (n := n') declared' shaped' tidy.right fresh'
      refine ((Covers.checkedMember cx m).quietly_seq_iff tidy fresh
        (faithful.checkedMember_iff (declared m hmem) (shaped m hmem) tidy.left fresh.left)
        hrest).trans ?_
      simp

end Context.Faithful

/-- What the check of a list of classes needs: a faithful table, known types and nothing missing. -/
structure Checkable (t : ClassTable) (p : Program) (c : ClassInfo) : Prop where
  faithful : Context.Faithful ⟨t, c⟩ p
  declared : ∀ m, some m ∈ c.decl.members → m.Declared p
  shaped : ∀ m, some m ∈ c.decl.members → Tree.All Node.Shaped [m.tree]

theorem checkedClasses_iff {t : ClassTable} {p : Program} {cs : List ClassInfo}
    (checkable : ∀ c ∈ cs, Checkable t p c) (tidy : Tidy (cs.flatMap fun c => c.decl.visits))
    {n : Notes} (fresh : n.Fresh (cs.flatMap fun c => c.decl.visits)) :
    Quietly (t.checkedClasses cs) n () ↔ ∀ c ∈ cs, p.BodiesOk c.decl := by
  induction cs generalizing n with
  | nil => exact iff_of_true ⟨n, rfl⟩ fun c hc => absurd hc List.not_mem_nil
  | cons c cs ih =>
    obtain ⟨faithful, declared, shaped⟩ := checkable c List.mem_cons_self
    rw [List.flatMap_cons, ClassDecl.visits_eq] at tidy fresh
    have hrest := fun n' fresh' =>
      ih (n := n') (fun d hd => checkable d (List.mem_cons_of_mem c hd)) tidy.right fresh'
    refine ((Covers.checkedMembers ⟨t, c⟩ c.decl.members).quietly_seq_iff tidy fresh
      (faithful.checkedMembers_iff declared shaped tidy.left fresh.left) hrest).trans ?_
    rw [List.forall_mem_cons, Program.bodiesOk_iff]
    rfl

/-! ### Formals

That the formals have known types is seen from a quiet check alone, whatever else the table
holds. -/

namespace Context

variable {cx : Context} {n : Notes}

theorem knows_of_binding {locals : ScopeStack Symbol} {line : Int} {kind : SymbolKind}
    {name : String} {t : Ty} {bound : Option Symbol}
    (h : cx.binding locals line kind name t = pure bound) : cx.table.knows t = true := by
  cases hknows : cx.table.knows t with
  | true => rfl
  | false =>
    rw [binding, hknows] at h
    cases hreserved : isReserved name <;> cases hpeek : (locals.peek name).isSome <;>
      simp [hreserved, hpeek] at h

theorem knows_of_declareFormals {cx : MethodContext} {fs : List Formal} {st st' : BodyState}
    (h : Yields (cx.declareFormals fs) st () st') : ∀ f ∈ fs, cx.table.knows f.type = true := by
  induction fs generalizing st with
  | nil => exact fun f hf => absurd hf List.not_mem_nil
  | cons f fs ih =>
    obtain ⟨_, st₁, hdeclare, hrest⟩ := yields_bind_iff.mp h
    rw [MethodContext.declare, yields_get_bind_iff] at hdeclare
    obtain ⟨_, _, hbinding, -⟩ := yields_bind_iff.mp hdeclare
    exact List.forall_mem_cons.mpr
      ⟨knows_of_binding (yields_lift_iff.mp hbinding).1, ih hrest⟩

theorem knows_of_checkedMethod {m : Method} (h : Quietly (cx.checkedMethod m) n ()) :
    ∀ f ∈ m.formals, cx.table.knows f.type = true := by
  obtain ⟨n', h⟩ := h
  obtain ⟨⟨u, st⟩, hrun, -⟩ := Reported.bind_eq_pure_iff.mp h
  obtain ⟨_, st₁, hformals, -⟩ := yields_bind_iff.mp hrun
  exact knows_of_declareFormals hformals

theorem knows_of_checkedMembers {ms : List (Option Member)}
    (h : Quietly (cx.checkedMembers ms) n ()) {m : Method} (hm : some (.method m) ∈ ms) :
    ∀ f ∈ m.formals, cx.table.knows f.type = true := by
  induction ms generalizing n with
  | nil => exact absurd hm List.not_mem_nil
  | cons o ms ih =>
    cases o with
    | none => exact ih h (by simpa using hm)
    | some g =>
      obtain ⟨n'', h⟩ := h
      obtain ⟨_, n', hfirst, hrest⟩ := yields_bind_iff.mp h
      rcases List.mem_cons.mp hm with heq | hm
      · cases heq
        exact knows_of_checkedMethod ⟨n', hfirst⟩
      · exact ih ⟨n'', hrest⟩ hm

end Context

theorem ClassTable.knows_of_checkedClasses {t : ClassTable} {cs : List ClassInfo} {n : Notes}
    (h : Quietly (t.checkedClasses cs) n ()) {c : ClassInfo} (hc : c ∈ cs) {m : Method}
    (hm : m ∈ c.decl.methods) : ∀ f ∈ m.formals, t.knows f.type = true := by
  induction cs generalizing n with
  | nil => exact absurd hc List.not_mem_nil
  | cons d cs ih =>
    obtain ⟨n'', h⟩ := h
    obtain ⟨_, n', hfirst, hrest⟩ := yields_bind_iff.mp h
    rcases List.mem_cons.mp hc with rfl | hc
    · exact Context.knows_of_checkedMembers ⟨n', hfirst⟩ (ClassDecl.mem_methods.mp hm)
    · exact ih ⟨n'', hrest⟩ hc

end ClassCheck
