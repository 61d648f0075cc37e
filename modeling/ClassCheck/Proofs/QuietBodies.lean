import ClassCheck.Proofs.QuietTyping
import ClassCheck.Proofs.Restoration

/-!
# Statements that are checked without a report

While a body is checked, its state follows the variables in sight. A statement is checked quietly
exactly if it is well typed among them, and the state then follows the variables that it leaves.
-/

namespace ClassCheck

open Step

/-! ### States and variables in sight -/

/-- The state of a body has the variables of `Γ`, and loops around it if `inLoop` says so. -/
structure Tracks (p : Program) (Γ : Program.Locals) (inLoop : Bool) (st : BodyState) : Prop where
  find : ∀ x, (st.locals.find? x).map (·.type) = Γ.vars.lookup x
  here : ∀ x, (st.locals.peek x).isSome = true ↔ x ∈ Γ.here
  known : p.KnownLocals Γ.vars
  loops : st.loops.isEmpty = !inLoop

namespace Tracks

variable {p : Program} {Γ : Program.Locals} {inLoop : Bool} {st : BodyState}

theorem notes (tracks : Tracks p Γ inLoop st) (n : Notes) :
    Tracks p Γ inLoop { st with notes := n } :=
  ⟨tracks.find, tracks.here, tracks.known, tracks.loops⟩

theorem enter (tracks : Tracks p Γ inLoop st) :
    Tracks p Γ.enter inLoop { st with locals := st.locals.enter } where
  find := tracks.find
  here := by
    intro x
    simp [Program.Locals.enter]
  known := tracks.known
  loops := tracks.loops

theorem openLoop (tracks : Tracks p Γ inLoop st) (line : Int) :
    Tracks p Γ true { st with loops := line :: st.loops } :=
  ⟨tracks.find, tracks.here, tracks.known, rfl⟩

theorem closeLoop (outer : Tracks p Γ inLoop st) {Γ' : Program.Locals} {st' : BodyState}
    (inner : Tracks p Γ' true st') {line : Int} (hloops : st'.loops = line :: st.loops) :
    Tracks p Γ' inLoop { st' with loops := st'.loops.tail } where
  find := inner.find
  here := inner.here
  known := inner.known
  loops := by
    rw [hloops]
    exact outer.loops

theorem closeScope (outer : Tracks p Γ inLoop st) {st' : BodyState}
    (hexit : st'.locals.exit = st.locals) (hloops : st'.loops = st.loops) :
    Tracks p Γ inLoop { st' with locals := st'.locals.exit } where
  find := hexit ▸ outer.find
  here := hexit ▸ outer.here
  known := outer.known
  loops := hloops ▸ outer.loops

theorem bind (tracks : Tracks p Γ inLoop st) (s : Symbol) (hknown : p.Known s.type) :
    Tracks p (Γ.bind s.name s.type) inLoop { st with locals := st.locals.add s.name s } where
  find := by
    intro x
    have hfind := tracks.find x
    by_cases hx : x = s.name
    · subst hx
      simp [ScopeStack.find?_add, Program.Locals.bind]
    · have hbeq : (x == s.name) = false := beq_eq_false_iff_ne.mpr hx
      simp [ScopeStack.find?_add, Program.Locals.bind, List.lookup_cons, hx, hbeq, hfind]
  here := by
    intro x
    have hhere := tracks.here x
    by_cases hx : x = s.name <;> simp [ScopeStack.peek_add, Program.Locals.bind, hx, hhere]
  known := by
    intro x t h
    by_cases hx : x = s.name
    · subst hx
      have hty : s.type = t := by simpa [Program.Locals.bind] using h
      exact hty ▸ hknown
    · have hbeq : (x == s.name) = false := beq_eq_false_iff_ne.mpr hx
      refine tracks.known x t ?_
      simpa [Program.Locals.bind, List.lookup_cons, hbeq] using h
  loops := tracks.loops

theorem scene {cx : MethodContext} (faithful : cx.toContext.Faithful p)
    (tracks : Tracks p Γ inLoop st) :
    Scene cx.toContext (st.locals :: cx.self.varChain) p Γ.vars where
  faithful := faithful
  known := tracks.known
  shows := by
    intro x hx t
    have hfind := tracks.find x
    rw [ScopeStack.lookup, List.findSome?_cons, Program.Visible, ← hfind]
    cases st.locals.find? x with
    | some s => simp
    | none =>
      have hfield := faithful.var_iff _ faithful.self_mem x hx t
      simpa [ScopeStack.lookup] using hfield

end Tracks

/-! ### Steps that follow the specification -/

/-- Run where nothing is noted about `es`, the step is quiet exactly if `R` leads on from the
variables in sight, and it then follows to where `R` leads. -/
structure Follows (p : Program) (inLoop : Bool) (m : Body Unit) (es : List Expr)
    (R : Program.Locals → Program.Locals → Prop) : Prop where
  sound : ∀ {Γ st st'}, Tracks p Γ inLoop st → st.notes.Fresh es → Yields m st () st' →
    ∃ Γ', R Γ Γ' ∧ Tracks p Γ' inLoop st'
  complete : ∀ {Γ Γ' st}, Tracks p Γ inLoop st → st.notes.Fresh es → R Γ Γ' →
    ∃ st', Yields m st () st' ∧ Tracks p Γ' inLoop st'

namespace Follows

variable {p : Program} {inLoop : Bool} {m m' : Body Unit} {es es' : List Expr}
  {R R' : Program.Locals → Program.Locals → Prop}

theorem congr (follows : Follows p inLoop m es R) (h : ∀ Γ Γ', R Γ Γ' ↔ R' Γ Γ') :
    Follows p inLoop m es R' := by
  have hR : R = R' := funext fun Γ => funext fun Γ' => propext (h Γ Γ')
  exact hR ▸ follows

theorem skip : Follows p inLoop (pure ()) [] (fun Γ Γ' => Γ' = Γ) where
  sound := by
    intro Γ st st' tracks _ h
    obtain ⟨-, rfl⟩ := yields_pure_iff.mp h
    exact ⟨Γ, rfl, tracks⟩
  complete := by
    intro Γ Γ' st tracks _ h
    subst h
    exact ⟨st, yields_pure_iff.mpr ⟨rfl, rfl⟩, tracks⟩

theorem seq (covers : Covers BodyState.notes m es) (tidy : Tidy (es ++ es'))
    (first : Follows p inLoop m es R) (second : Follows p inLoop m' es' R') :
    Follows p inLoop (m >>= fun _ => m') (es ++ es') (fun Γ Γ'' => ∃ Γ', R Γ Γ' ∧ R' Γ' Γ'') where
  -- the first step notes only the types of its own expressions, so the others stay fresh
  sound := by
    intro Γ st st'' tracks fresh h
    obtain ⟨_, st', hm, hm'⟩ := yields_bind_iff.mp h
    obtain ⟨Γ', hR, tracks'⟩ := first.sound tracks fresh.left hm
    obtain ⟨Γ'', hR', tracks''⟩ :=
      second.sound tracks' (covers.fresh hm tidy fresh) hm'
    exact ⟨Γ'', ⟨Γ', hR, hR'⟩, tracks''⟩
  complete := by
    intro Γ Γ'' st tracks fresh h
    obtain ⟨Γ', hR, hR'⟩ := h
    obtain ⟨st', hm, tracks'⟩ := first.complete tracks fresh.left hR
    obtain ⟨st'', hm', tracks''⟩ :=
      second.complete tracks' (covers.fresh hm tidy fresh) hR'
    exact ⟨st'', yields_bind_iff.mpr ⟨(), st', hm, hm'⟩, tracks''⟩

theorem loop (body : Follows p true m es R) (restores : Restores m) (line : Int) :
    Follows p inLoop (Body.inLoop line m) es R where
  sound := by
    intro Γ st st' tracks fresh h
    obtain ⟨_, _, hopen, h⟩ := yields_bind_iff.mp h
    obtain ⟨-, rfl⟩ := yields_modify_iff.mp hopen
    obtain ⟨_, st₁, hm, hclose⟩ := yields_bind_iff.mp h
    obtain ⟨-, rfl⟩ := yields_modify_iff.mp hclose
    obtain ⟨Γ', hR, tracks'⟩ := body.sound (tracks.openLoop line) fresh hm
    exact ⟨Γ', hR, tracks.closeLoop tracks' (restores.yields hm).loops⟩
  complete := by
    intro Γ Γ' st tracks fresh hR
    obtain ⟨st₁, hm, tracks'⟩ := body.complete (tracks.openLoop line) fresh hR
    refine ⟨_, yields_bind_iff.mpr ⟨(), _, yields_modify_iff.mpr ⟨rfl, rfl⟩, ?_⟩,
      tracks.closeLoop tracks' (restores.yields hm).loops⟩
    exact yields_bind_iff.mpr ⟨(), st₁, hm, yields_modify_iff.mpr ⟨rfl, rfl⟩⟩

theorem scope (body : Follows p inLoop m es R) (restores : Restores m) :
    Follows p inLoop (Body.inScope m) es (fun Γ Γ' => Γ' = Γ ∧ ∃ Γ₁, R Γ.enter Γ₁) where
  sound := by
    intro Γ st st' tracks fresh h
    obtain ⟨_, _, hopen, h⟩ := yields_bind_iff.mp h
    obtain ⟨-, rfl⟩ := yields_modify_iff.mp hopen
    obtain ⟨_, st₁, hm, hclose⟩ := yields_bind_iff.mp h
    obtain ⟨-, rfl⟩ := yields_modify_iff.mp hclose
    obtain ⟨Γ₁, hR, -⟩ := body.sound tracks.enter fresh hm
    have restored := restores.yields hm
    exact ⟨Γ, ⟨rfl, Γ₁, hR⟩, tracks.closeScope restored.outer restored.loops⟩
  complete := by
    intro Γ Γ' st tracks fresh h
    obtain ⟨rfl, Γ₁, hR⟩ := h
    obtain ⟨st₁, hm, -⟩ := body.complete tracks.enter fresh hR
    have restored := restores.yields hm
    refine ⟨_, yields_bind_iff.mpr ⟨(), _, yields_modify_iff.mpr ⟨rfl, rfl⟩, ?_⟩,
      tracks.closeScope restored.outer restored.loops⟩
    exact yields_bind_iff.mpr ⟨(), st₁, hm, yields_modify_iff.mpr ⟨rfl, rfl⟩⟩

theorem lift {j : Judged Unit} {P : Prop} (hj : j = pure () ↔ P) :
    Follows p inLoop (liftM j) [] (fun Γ Γ' => Γ' = Γ ∧ P) where
  sound := by
    intro Γ st st' tracks _ h
    obtain ⟨hquiet, rfl⟩ := yields_lift_iff.mp h
    exact ⟨Γ, ⟨rfl, hj.mp hquiet⟩, tracks⟩
  complete := by
    intro Γ Γ' st tracks _ h
    obtain ⟨rfl, h⟩ := h
    exact ⟨st, yields_lift_iff.mpr ⟨hj.mpr h, rfl⟩, tracks⟩

end Follows

/-! ### Statements -/

def Checks (cx : MethodContext) (p : Program) (inLoop : Bool) (s : Stmt) : Prop :=
  Follows p inLoop (cx.check s) s.visits fun Γ Γ' =>
    p.StmtOk cx.self.name cx.returnType inLoop Γ s Γ'

namespace Checks

variable {cx : MethodContext} {p : Program} {inLoop : Bool}

theorem absent : Checks cx p inLoop .absent := by
  rw [Checks, Stmt.visits_absent]
  refine Follows.skip.congr fun Γ Γ' => ⟨fun h => h ▸ .absent, fun h => ?_⟩
  cases h
  rfl

theorem breakLoop (line : Int) : Checks cx p inLoop (.breakLoop line) := by
  rw [Checks, Stmt.visits_breakLoop]
  constructor
  · intro Γ st st' tracks _ h
    rw [MethodContext.check, yields_get_bind_iff, yields_lift_iff] at h
    obtain ⟨hquiet, rfl⟩ := h
    rw [Context.require_eq_pure_iff, tracks.loops, Bool.not_not] at hquiet
    subst hquiet
    exact ⟨Γ, .breakLoop, tracks⟩
  · intro Γ Γ' st tracks _ h
    cases h
    have hquiet : cx.require (!st.loops.isEmpty) line .breakOutsideLoop = pure () := by
      rw [Context.require_eq_pure_iff, tracks.loops]
      rfl
    rw [MethodContext.check]
    exact ⟨st, yields_get_bind_iff.mpr (yields_lift_iff.mpr ⟨hquiet, rfl⟩), tracks⟩

theorem all {ss : List Stmt} (tidy : Tidy (ss.flatMap Stmt.visits))
    (checks : ∀ s ∈ ss, Checks cx p inLoop s) :
    Follows p inLoop (cx.checkAll ss) (ss.flatMap Stmt.visits) fun Γ Γ' =>
      p.BodyOk cx.self.name cx.returnType inLoop Γ ss Γ' := by
  induction ss with
  | nil =>
    refine Follows.skip.congr fun Γ Γ' => ⟨fun h => h ▸ .nil, fun h => ?_⟩
    cases h
    rfl
  | cons s ss ih =>
    have hrest := ih tidy.right fun r hr => checks r (List.mem_cons_of_mem _ hr)
    have hfollows := Follows.seq ((Covers.met cx).check s) tidy (checks s List.mem_cons_self) hrest
    refine hfollows.congr fun Γ Γ'' => ⟨fun h => ?_, fun h => ?_⟩
    · obtain ⟨Γ', hs, hss⟩ := h
      exact .cons hs hss
    · cases h with
      | cons hs hss => exact ⟨_, hs, hss⟩

theorem block (line : Int) {body : List Stmt} (tidy : Tidy (body.flatMap Stmt.visits))
    (checks : ∀ s ∈ body, Checks cx p inLoop s) : Checks cx p inLoop (.block line body) := by
  rw [Checks, Stmt.visits_block]
  refine ((all tidy checks).scope ((Restores.met cx).checkAll body)).congr fun Γ Γ' => ?_
  constructor
  · intro h
    obtain ⟨rfl, _, hbody⟩ := h
    exact .block hbody
  · intro h
    cases h with
    | block hbody => exact ⟨rfl, _, hbody⟩

end Checks

theorem Expr.isStatement_iff {e : Expr} : e.isStatement = true ↔ e.Effect := by
  constructor
  · intro h
    cases e with
    | assign | assignElement | newObject | dispatch => constructor
    | unary site op trailing operand =>
      refine .update site op trailing operand ?_
      cases op with
      | incr => exact .inl rfl
      | decr => exact .inr rfl
      | _ => cases h
    | _ => cases h
  · intro h
    cases h with
    | update site op trailing operand hop => rcases hop with rfl | rfl <;> rfl
    | _ => rfl

theorem value_yields_iff {cx : MethodContext} {e : Expr} {st st' : BodyState} {t : Ty} :
    Yields (cx.value e) st t st' ↔
      ∃ n', Yields (cx.infer (st.locals :: cx.self.varChain) e) st.notes t n' ∧
        st' = { st with notes := n' } := by
  constructor
  · intro h
    obtain ⟨⟨u, n'⟩, hinfer, h⟩ := Reported.bind_eq_pure_iff.mp h
    cases Reported.pure_eq_pure_iff.mp h
    exact ⟨n', hinfer, rfl⟩
  · intro h
    obtain ⟨n', hinfer, rfl⟩ := h
    exact Reported.bind_eq_pure_iff.mpr ⟨(t, n'), hinfer, rfl⟩

theorem initialized_error {cx : Context} {line : Int} {name : String} {bound : Option Symbol} :
    cx.initialized line name bound .error = pure () := by
  cases bound with
  | none => rfl
  | some s =>
    have haccepts : cx.table.accepts s.type .error = true := by
      simp [ClassTable.accepts, Ty.isError, Ty.error, Ty.plain]
    rw [Context.initialized, haccepts]
    cases s.type.isError <;> rfl

namespace Context.Faithful

variable {cx : MethodContext} {p : Program} (faithful : cx.toContext.Faithful p) {inLoop : Bool}
include faithful

/-! ### Parts of statements -/

/-- After an expression, the step goes on with a type that it has; where there is none, with the
error type. -/
theorem follows_value {e : Expr} {es : List Expr} (tidy : Tidy (e.visits ++ es))
    {f : Ty → Body Unit} {R : Ty → Program.Locals → Program.Locals → Prop}
    {R₀ : Program.Locals → Program.Locals → Prop}
    (hthere : ∀ t, p.Valid t → Follows p inLoop (f t) es (R t))
    (hmissing : e = .absent → Follows p inLoop (f .error) es R₀) :
    Follows p inLoop (cx.value e >>= f) (e.visits ++ es) (fun Γ Γ' =>
      (e = .absent ∧ R₀ Γ Γ') ∨ ∃ t, p.HasType cx.self.name Γ.vars e t ∧ R t Γ Γ') := by
  by_cases he : e = .absent
  · subst he
    refine (hmissing rfl).congr fun Γ Γ' => ⟨fun h => .inl ⟨rfl, h⟩, fun h => ?_⟩
    rcases h with ⟨-, h⟩ | ⟨t, htype, -⟩
    · exact h
    · cases htype
  constructor
  · intro Γ st st'' tracks fresh h
    have scene := tracks.scene faithful
    obtain ⟨t, st', hm, hf⟩ := yields_bind_iff.mp h
    have fresh' := Covers.fresh ((Covers.met cx).value e) hm tidy fresh
    obtain ⟨n', hinfer, rfl⟩ := value_yields_iff.mp hm
    have htype := (scene.agrees e he tidy.left st.notes fresh.left t).mp ⟨n', hinfer⟩
    obtain ⟨Γ', hR, tracks'⟩ := (hthere t (scene.valid htype)).sound (tracks.notes n') fresh' hf
    exact ⟨Γ', .inr ⟨t, htype, hR⟩, tracks'⟩
  · intro Γ Γ' st tracks fresh h
    have scene := tracks.scene faithful
    obtain ⟨t, htype, hR⟩ := h.resolve_left fun h => he h.1
    obtain ⟨n', hinfer⟩ := (scene.agrees e he tidy.left st.notes fresh.left t).mpr htype
    have hm := value_yields_iff.mpr ⟨n', hinfer, rfl⟩
    have fresh' := Covers.fresh ((Covers.met cx).value e) hm tidy fresh
    obtain ⟨st', hf, tracks'⟩ :=
      (hthere t (scene.valid htype)).complete (tracks.notes n') fresh' hR
    exact ⟨st', yields_bind_iff.mpr ⟨t, _, hm, hf⟩, tracks'⟩

theorem follows_last {e : Expr} (tidy : Tidy e.visits) {f : Ty → Body Unit}
    {R : Ty → Program.Locals → Program.Locals → Prop}
    {R₀ : Program.Locals → Program.Locals → Prop}
    (hthere : ∀ t, p.Valid t → Follows p inLoop (f t) [] (R t))
    (hmissing : e = .absent → Follows p inLoop (f .error) [] R₀) :
    Follows p inLoop (cx.value e >>= f) e.visits (fun Γ Γ' =>
      (e = .absent ∧ R₀ Γ Γ') ∨ ∃ t, p.HasType cx.self.name Γ.vars e t ∧ R t Γ Γ') := by
  have hnil : e.visits ++ [] = e.visits := List.append_nil _
  have tidy' : Tidy (e.visits ++ []) := by rwa [hnil]
  have hfollows := faithful.follows_value tidy' hthere hmissing
  rwa [hnil] at hfollows

theorem follows_judged {e : Expr} (tidy : Tidy e.visits) {j : Ty → Judged Unit} {P : Ty → Prop}
    (hthere : ∀ t, p.Valid t → (j t = pure () ↔ P t))
    (hmissing : e = .absent → j .error = pure ()) :
    Follows p inLoop (cx.value e >>= fun t => liftM (j t)) e.visits (fun Γ Γ' =>
      Γ' = Γ ∧ (e = .absent ∨ ∃ t, p.HasType cx.self.name Γ.vars e t ∧ P t)) := by
  have hfollows : Follows p inLoop _ _ _ := faithful.follows_last tidy
    (fun t ht => .lift (hthere t ht)) (fun he => .lift (iff_true_intro (hmissing he)))
  refine hfollows.congr fun Γ Γ' => ?_
  simp only [and_true, and_left_comm, exists_and_left]
  tauto

theorem follows_condition {place : Conditional} {e : Expr} (tidy : Tidy e.visits) :
    Follows p inLoop (cx.condition place e) e.visits (fun Γ Γ' =>
      Γ' = Γ ∧ (e = .absent ∨ p.HasType cx.self.name Γ.vars e .boolean)) := by
  have hfits : ∀ t, p.Valid t → (cx.toContext.condition place e t = pure () ↔ t = .boolean) := by
    intro t ht
    rw [Context.condition, require_eq_pure_iff]
    exact faithful.fitsBoolean_iff ht
  refine (faithful.follows_judged tidy hfits fun _ => rfl).congr fun Γ Γ' => ?_
  simp only [exists_eq_right]

theorem follows_optional {e : Expr} {es : List Expr} (tidy : Tidy (e.visits ++ es)) {m : Body Unit}
    {R : Program.Locals → Program.Locals → Prop} (hm : Follows p inLoop m es R) :
    Follows p inLoop (cx.value e >>= fun _ => m) (e.visits ++ es) (fun Γ Γ' =>
      p.TypedIfThere cx.self.name Γ.vars e ∧ R Γ Γ') := by
  refine (faithful.follows_value tidy (fun _ _ => hm) (fun _ => hm)).congr fun Γ Γ' => ?_
  simp only [Program.TypedIfThere, or_and_right, exists_and_right]

theorem binding_eq_pure_iff {Γ : Program.Locals} {st : BodyState} (tracks : Tracks p Γ inLoop st)
    {line : Int} {kind : SymbolKind} {name : String} {t : Ty} {bound : Option Symbol} :
    cx.binding st.locals line kind name t = pure bound ↔
      (name ∉ ["this", "super", "null"] ∧ name ∉ Γ.here ∧ p.Known t) ∧
        bound = some ⟨name, kind, t⟩ := by
  rw [← isReserved_eq_false_iff, ← tracks.here, ← faithful.knows_iff, Context.binding]
  cases isReserved name <;> cases (st.locals.peek name).isSome <;> cases cx.table.knows t <;> simp

theorem declare_yields_iff {Γ : Program.Locals} {st st' : BodyState} (tracks : Tracks p Γ inLoop st)
    (line : Int) (kind : SymbolKind) {name : String} {t : Ty} {bound : Option Symbol} :
    Yields (cx.declare line kind name t) st bound st' ↔
      (name ∉ ["this", "super", "null"] ∧ name ∉ Γ.here ∧ p.Known t) ∧
        bound = some ⟨name, kind, t⟩ ∧
        st' = { st with locals := st.locals.add name ⟨name, kind, t⟩ } := by
  rw [MethodContext.declare, yields_get_bind_iff, yields_bind_iff]
  simp only [yields_lift_iff, faithful.binding_eq_pure_iff tracks]
  constructor
  · intro h
    obtain ⟨_, _, ⟨⟨hok, rfl⟩, rfl⟩, h⟩ := h
    obtain ⟨_, _, hadd, h⟩ := yields_bind_iff.mp h
    obtain ⟨-, rfl⟩ := yields_modify_iff.mp hadd
    obtain ⟨rfl, rfl⟩ := yields_pure_iff.mp h
    exact ⟨hok, rfl, rfl⟩
  · intro h
    obtain ⟨hok, rfl, rfl⟩ := h
    exact ⟨_, st, ⟨⟨hok, rfl⟩, rfl⟩, rfl⟩

theorem follows_declare {line : Int} {kind : SymbolKind} {name : String} {t : Ty}
    {f : Option Symbol → Body Unit} {es : List Expr}
    {R : Program.Locals → Program.Locals → Prop}
    (hf : p.Known t → Follows p inLoop (f (some ⟨name, kind, t⟩)) es R) :
    Follows p inLoop (cx.declare line kind name t >>= f) es (fun Γ Γ'' =>
      ∃ Γ', p.Binds Γ name t Γ' ∧ R Γ' Γ'') := by
  constructor
  · intro Γ st st'' tracks fresh h
    obtain ⟨bound, st', hm, h⟩ := yields_bind_iff.mp h
    obtain ⟨⟨hname, hnew, hknown⟩, rfl, rfl⟩ := (faithful.declare_yields_iff tracks line kind).mp hm
    obtain ⟨Γ'', hR, tracks''⟩ := (hf hknown).sound (tracks.bind ⟨name, kind, t⟩ hknown) fresh h
    exact ⟨Γ'', ⟨_, ⟨hname, hnew, hknown, rfl⟩, hR⟩, tracks''⟩
  · intro Γ Γ'' st tracks fresh h
    obtain ⟨Γ', ⟨hname, hnew, hknown, rfl⟩, hR⟩ := h
    have hm := (faithful.declare_yields_iff tracks line kind).mpr ⟨⟨hname, hnew, hknown⟩, rfl, rfl⟩
    obtain ⟨st'', h, tracks''⟩ := (hf hknown).complete (tracks.bind ⟨name, kind, t⟩ hknown) fresh hR
    exact ⟨st'', yields_bind_iff.mpr ⟨_, _, hm, h⟩, tracks''⟩

theorem initialized_iff {line : Int} {name : String} {kind : SymbolKind} {t : Ty}
    (hknown : p.Known t) {initType : Ty} (hvalid : p.Valid initType) :
    cx.initialized line name (some ⟨name, kind, t⟩) initType = pure () ↔
      p.Assignable t initType := by
  have herror := (faithful.known_not_special hknown).2.2
  simp only [Context.initialized, herror, Bool.false_eq_true, if_false]
  exact faithful.fits_iff hknown hvalid

/-! ### Statements -/

theorem checks_decl {line : Int} {name : String} {t : Ty} {init : Expr} (tidy : Tidy init.visits) :
    Checks cx p inLoop (.decl line name t init) := by
  have hfollows : Follows p inLoop (cx.check (.decl line name t init)) init.visits _ :=
    faithful.follows_last tidy
      (fun s hs => faithful.follows_declare fun hknown =>
        .lift (faithful.initialized_iff hknown hs))
      (fun _ => faithful.follows_declare fun _ => .lift (iff_true_intro initialized_error))
  rw [Checks, Stmt.visits_decl]
  refine hfollows.congr fun Γ Γ' => ?_
  constructor
  · intro h
    rcases h with ⟨rfl, _, hbinds, rfl, -⟩ | ⟨s, htype, _, hbinds, rfl, hfits⟩
    · exact .decl (.inl rfl) hbinds
    · exact .decl (.inr ⟨s, htype, hfits⟩) hbinds
  · intro h
    cases h with
    | decl hinit hbinds =>
      rcases hinit with rfl | ⟨s, htype, hfits⟩
      · exact .inl ⟨rfl, Γ', hbinds, rfl, trivial⟩
      · exact .inr ⟨s, htype, Γ', hbinds, rfl, hfits⟩

theorem checks_expr {line : Int} {e : Expr} (he : e ≠ .absent) (tidy : Tidy e.visits) :
    Checks cx p inLoop (.expr line e) := by
  have hfollows : Follows p inLoop (cx.check (.expr line e)) e.visits _ :=
    faithful.follows_judged tidy (fun t _ => require_eq_pure_iff) (fun h => absurd h he)
  rw [Checks, Stmt.visits_expr]
  refine hfollows.congr fun Γ Γ' => ?_
  constructor
  · intro h
    obtain ⟨rfl, h⟩ := h
    obtain ⟨t, htype, heffect⟩ := h.resolve_left he
    exact .expr htype (Expr.isStatement_iff.mp heffect)
  · intro h
    cases h with
    | expr htype heffect => exact ⟨rfl, .inr ⟨_, htype, Expr.isStatement_iff.mpr heffect⟩⟩

theorem checks_ifElse {line : Int} {c : Expr} {thenBranch elseBranch : Stmt} (hc : c ≠ .absent)
    (tidy : Tidy (c.visits ++ (thenBranch.visits ++ elseBranch.visits)))
    (hthen : Checks cx p inLoop thenBranch) (helse : Checks cx p inLoop elseBranch) :
    Checks cx p inLoop (.ifElse line c thenBranch elseBranch) := by
  rw [Checks, Stmt.visits_ifElse, List.append_assoc]
  have hbranches := Follows.seq ((Covers.met cx).check thenBranch) tidy.right hthen helse
  have hfollows := Follows.seq ((Covers.met cx).condition .ifElse c) tidy
    (faithful.follows_condition tidy.left) hbranches
  refine hfollows.congr fun Γ Γ'' => ?_
  constructor
  · intro h
    obtain ⟨_, ⟨rfl, htype⟩, Γ', hthen, helse⟩ := h
    exact .ifElse (htype.resolve_left hc) hthen helse
  · intro h
    cases h with
    | ifElse htype hthen helse => exact ⟨_, ⟨rfl, .inr htype⟩, _, hthen, helse⟩

theorem checks_whileLoop {line : Int} {c : Expr} {body : Stmt} (hc : c ≠ .absent)
    (tidy : Tidy (c.visits ++ body.visits)) (hbody : Checks cx p true body) :
    Checks cx p inLoop (.whileLoop line c body) := by
  rw [Checks, Stmt.visits_whileLoop]
  have hround := Follows.seq ((Covers.met cx).condition .whileLoop c) tidy
    (faithful.follows_condition tidy.left) hbody
  have restores := Restores.bind ((Restores.met cx).condition .whileLoop c) fun _ =>
    (Restores.met cx).check body
  have hfollows : Follows p inLoop _ _ _ := hround.loop restores line
  simp only [Body.inLoop, bind_assoc] at hfollows
  refine Follows.congr hfollows fun Γ Γ' => ?_
  constructor
  · intro h
    obtain ⟨_, ⟨rfl, htype⟩, hbody⟩ := h
    exact .whileLoop (htype.resolve_left hc) hbody
  · intro h
    cases h with
    | whileLoop htype hbody => exact ⟨_, ⟨rfl, .inr htype⟩, hbody⟩

theorem checks_forLoop {line : Int} {init c update : Expr} {body : Stmt}
    (tidy : Tidy (init.visits ++ (c.visits ++ (update.visits ++ body.visits))))
    (hbody : Checks cx p true body) : Checks cx p inLoop (.forLoop line init c update body) := by
  simp only [Checks, Stmt.visits_forLoop, List.append_assoc]
  have hround := faithful.follows_optional tidy (Follows.seq ((Covers.met cx).condition .forLoop c)
    tidy.right (faithful.follows_condition tidy.right.left)
    (faithful.follows_optional tidy.right.right hbody))
  have restores := Restores.bind ((Restores.met cx).value init) fun _ =>
    Restores.bind ((Restores.met cx).condition .forLoop c) fun _ =>
      Restores.bind ((Restores.met cx).value update) fun _ => (Restores.met cx).check body
  have hfollows : Follows p inLoop _ _ _ := hround.loop restores line
  simp only [Body.inLoop, bind_assoc] at hfollows
  refine Follows.congr hfollows fun Γ Γ' => ?_
  constructor
  · intro h
    obtain ⟨hinit, _, ⟨rfl, hc⟩, hupdate, hbody⟩ := h
    exact .forLoop hinit hc hupdate hbody
  · intro h
    cases h with
    | forLoop hinit hc hupdate hbody => exact ⟨hinit, _, ⟨rfl, hc⟩, hupdate, hbody⟩

theorem returned_iff (hresult : cx.returnType = .void ∨ p.Known cx.returnType) (line : Int) :
    cx.returned line = pure () ↔ cx.returnType = .void := by
  have herror := faithful.valid_not_error (hresult.symm.imp_right .inl)
  rw [MethodContext.returned, require_eq_pure_iff, herror, Bool.or_false, Ty.isVoid_iff]

theorem returnedValue_iff (hresult : cx.returnType = .void ∨ p.Known cx.returnType) (line : Int)
    {t : Ty} (ht : p.Valid t) :
    cx.returnedValue line t = pure () ↔ cx.returnType ≠ .void ∧ t = cx.returnType := by
  have herror := faithful.valid_not_error (hresult.symm.imp_right .inl)
  rw [MethodContext.returnedValue]
  by_cases hvoid : cx.returnType = .void
  · rw [if_pos (Ty.isVoid_iff.mpr hvoid)]
    exact iff_of_false report_eq_pure_iff.mp fun h => h.1 hvoid
  rw [if_neg (mt Ty.isVoid_iff.mp hvoid)]
  by_cases htv : t = .void
  · rw [if_pos (Ty.isVoid_iff.mpr htv)]
    exact iff_of_false report_eq_pure_iff.mp fun h => hvoid (h.2.symm.trans htv)
  · rw [if_neg (mt Ty.isVoid_iff.mp htv), require_eq_pure_iff, herror, faithful.valid_not_error ht]
    simp [hvoid]

theorem checks_ret (hresult : cx.returnType = .void ∨ p.Known cx.returnType) {line : Int} {e : Expr}
    (tidy : Tidy e.visits) : Checks cx p inLoop (.ret line e) := by
  rw [Checks, Stmt.visits_ret]
  by_cases he : e = .absent
  · subst he
    have hquiet := faithful.returned_iff hresult line
    rw [MethodContext.check]
    refine (Follows.lift hquiet).congr fun Γ Γ' => ?_
    constructor
    · intro h
      obtain ⟨rfl, hvoid⟩ := h
      exact .retNothing hvoid
    · intro h
      cases h with
      | retNothing hvoid => exact ⟨rfl, hvoid⟩
      | ret _ htype => cases htype
  · have hquiet := fun t => faithful.returnedValue_iff hresult line (t := t)
    rw [MethodContext.check, Expr.isAbsent_eq_false he]
    refine (faithful.follows_judged tidy hquiet fun h => absurd h he).congr fun Γ Γ' => ?_
    constructor
    · intro h
      obtain ⟨rfl, h⟩ := h
      obtain ⟨_, htype, hvoid, rfl⟩ := h.resolve_left he
      exact .ret hvoid htype
    · intro h
      cases h with
      | retNothing => exact absurd rfl he
      | ret hvoid htype => exact ⟨rfl, .inr ⟨_, htype, hvoid, rfl⟩⟩

/-- Every statement whose parts are there is checked quietly exactly if it is well typed. -/
theorem checks (hresult : cx.returnType = .void ∨ p.Known cx.returnType) (s : Stmt)
    (shaped : Tree.All Node.Shaped s.trees) (tidy : Tidy s.visits) (inLoop : Bool) :
    Checks cx p inLoop s := by
  induction s generalizing inLoop with
  | absent => exact .absent
  | decl line name t init => exact faithful.checks_decl (Stmt.visits_decl _ _ _ _ ▸ tidy)
  | expr line e =>
    obtain ⟨he, -⟩ := Tree.All.node.mp shaped
    exact faithful.checks_expr he (Stmt.visits_expr _ _ ▸ tidy)
  | ifElse line c thenBranch elseBranch iht ihe =>
    obtain ⟨⟨hc, -⟩, hparts⟩ := Tree.All.node.mp shaped
    obtain ⟨hparts, helse⟩ := Tree.All.append.mp hparts
    obtain ⟨-, hthen⟩ := Tree.All.append.mp hparts
    rw [Stmt.visits_ifElse, List.append_assoc] at tidy
    exact faithful.checks_ifElse hc tidy (iht hthen tidy.right.left inLoop)
      (ihe helse tidy.right.right inLoop)
  | whileLoop line c body ih =>
    obtain ⟨⟨hc, -⟩, hparts⟩ := Tree.All.node.mp shaped
    obtain ⟨-, hbody⟩ := Tree.All.append.mp hparts
    rw [Stmt.visits_whileLoop] at tidy
    exact faithful.checks_whileLoop hc tidy (ih hbody tidy.right true)
  | forLoop line init c update body ih =>
    obtain ⟨-, hparts⟩ := Tree.All.node.mp shaped
    obtain ⟨-, hbody⟩ := Tree.All.append.mp hparts
    simp only [Stmt.visits_forLoop, List.append_assoc] at tidy
    exact faithful.checks_forLoop tidy (ih hbody tidy.right.right.right true)
  | breakLoop line => exact .breakLoop line
  | block line body ih =>
    obtain ⟨-, hparts⟩ := Tree.All.node.mp shaped
    rw [Stmt.visits_block] at tidy
    refine .block line tidy fun s hs => ih s hs ?_ (tidy.of_mem hs) inLoop
    exact Tree.All.of_stmts hparts hs
  | ret line e => exact faithful.checks_ret hresult (Stmt.visits_ret _ _ ▸ tidy)

theorem follows_formals (fs : List Formal) :
    Follows p inLoop (cx.declareFormals fs) [] fun Γ Γ' => p.FormalsOk Γ fs Γ' := by
  induction fs with
  | nil =>
    refine Follows.skip.congr fun Γ Γ' => ⟨fun h => h ▸ .nil, fun h => ?_⟩
    cases h
    rfl
  | cons f fs ih =>
    have hfollows : Follows p inLoop (cx.declareFormals (f :: fs)) [] _ :=
      faithful.follows_declare fun _ => ih
    refine hfollows.congr fun Γ Γ'' => ⟨fun h => ?_, fun h => ?_⟩
    · obtain ⟨Γ', hbinds, hrest⟩ := h
      exact .cons hbinds hrest
    · cases h with
      | cons hbinds hrest => exact ⟨_, hbinds, hrest⟩

end Context.Faithful

end ClassCheck
