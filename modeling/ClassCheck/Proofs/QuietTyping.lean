import ClassCheck.Proofs.Coverage
import ClassCheck.Proofs.QuietRules

/-!
# Types of expressions that are typed without a report

On an expression with no missing operand and no shared node, typing reports nothing and gives `t`
exactly if the expression has the type `t`.
-/

namespace ClassCheck

open Step

/-- No node is met twice and none lacks an operand. -/
def Tidy (es : List Expr) : Prop := es.Nodup ∧ ∀ e ∈ es, e.Shaped

namespace Tidy

variable {es fs : List Expr}

theorem left (tidy : Tidy (es ++ fs)) : Tidy es :=
  ⟨tidy.1.of_append_left, fun e he => tidy.2 e (List.mem_append_left _ he)⟩

theorem right (tidy : Tidy (es ++ fs)) : Tidy fs :=
  ⟨tidy.1.of_append_right, fun e he => tidy.2 e (List.mem_append_right _ he)⟩

theorem of_mem {α : Type} {visits : α → List Expr} {as : List α} (tidy : Tidy (as.flatMap visits))
    {a : α} (ha : a ∈ as) : Tidy (visits a) :=
  ⟨(List.nodup_flatMap.mp tidy.1).1 a ha,
    fun e he => tidy.2 e (List.mem_flatMap.mpr ⟨a, ha, he⟩)⟩

theorem inner {e : Expr} (he : e ≠ .absent) (tidy : Tidy e.visits) :
    e.Shaped ∧ Tidy (e.inner ++ [e]) := by
  rw [Expr.visits_eq he] at tidy
  refine ⟨tidy.2 e List.mem_cons_self, ?_, ?_⟩
  · exact List.nodup_append_comm.mp tidy.1
  · intro x hx
    exact tidy.2 x (by simpa [or_comm] using hx)

end Tidy

def Notes.Fresh (n : Notes) (es : List Expr) : Prop := ∀ e ∈ es, ¬ n.Has e

namespace Notes.Fresh

variable {n : Notes}

theorem left {es fs : List Expr} (fresh : n.Fresh (es ++ fs)) : n.Fresh es :=
  fun e he => fresh e (List.mem_append_left _ he)

theorem inner {e : Expr} (he : e ≠ .absent) (fresh : n.Fresh e.visits) :
    n.Fresh (e.inner ++ [e]) := by
  rw [Expr.visits_eq he] at fresh
  intro x hx
  exact fresh x (by simpa [or_comm] using hx)

end Notes.Fresh

theorem Covers.fresh {σ α : Type} {notes : σ → Notes} {m : StateT σ Judged α} {es rest : List Expr}
    (covers : Covers notes m es) {s s' : σ} {a : α} (h : Yields m s a s')
    (tidy : Tidy (es ++ rest)) (fresh : (notes s).Fresh (es ++ rest)) : (notes s').Fresh rest := by
  intro x hx hhas
  rw [← h.state_eq] at hhas
  rcases (covers s x).mp hhas with hold | hnew
  · exact fresh x (List.mem_append_right _ hx) hold
  · exact (List.nodup_append.mp tidy.1).2.2 x hnew x hx rfl

theorem settle_iff {n : Notes} {e : Expr} (fresh : n.Fresh [e]) {t u : Ty} :
    Quietly (Check.settle e u) n t ↔ t = u := by
  have hnone : n.typeOf? e = none := by
    simpa [Notes.Has] using fresh e (List.mem_singleton_self e)
  have hsettled : n.settled e u = u := by rw [Notes.settled, hnone]; rfl
  simp only [Quietly, Yields, Check.settle, hsettled, Reported.pure_eq_pure_iff, Prod.mk.injEq,
    exists_and_left, exists_eq, and_true]

theorem markCast_settle_iff {n : Notes} {e : Expr} (fresh : n.Fresh [e]) {upcast : Option Bool}
    {t u : Ty} :
    Quietly (do
      Check.markCast e upcast
      Check.settle e u) n t ↔ t = u := by
  cases upcast with
  | none => exact settle_iff fresh
  | some up =>
    -- the mark leaves the types alone
    have fresh' : (n.markCast e up).Fresh [e] := fresh
    exact settle_iff fresh'

/-- The step ends with the type that it gives noted for `e`. -/
def Settles (e : Expr) (m : Check Ty) : Prop :=
  ∀ n t n', Yields m n t n' → n'.typeOf? e = some t

namespace Settles

theorem settle (e : Expr) (t : Ty) : Settles e (Check.settle e t) := by
  intro n u n' h
  have hpair := Reported.pure_eq_pure_iff.mp h
  cases hpair
  rw [Notes.typeOf?_record, if_pos rfl]

theorem bind {α : Type} {e : Expr} {m : Check α} {f : α → Check Ty} (hf : ∀ a, Settles e (f a)) :
    Settles e (m >>= f) := by
  intro n u n'' h
  obtain ⟨a, n', -, h⟩ := yields_bind_iff.mp h
  exact hf a n' u n'' h

theorem infer (cx : Context) (vars : Vars) {e : Expr} (he : e ≠ .absent) :
    Settles e (cx.infer vars e) := by
  cases e with
  | absent => exact absurd rfl he
  | int | bool | str => exact settle _ _
  | newObject => exact bind fun _ => settle _ _
  | var | newArray | instanceOf => exact bind fun _ => bind fun _ => settle _ _
  | assign | cast | binary | unary => exact bind fun _ => bind fun _ => bind fun _ => settle _ _
  | dispatch => exact bind fun _ => bind fun _ => bind fun _ => bind fun _ => settle _ _
  | element =>
    exact bind fun _ => bind fun _ => bind fun _ => bind fun _ => bind fun _ => settle _ _
  | assignElement =>
    exact bind fun _ => bind fun _ => bind fun _ => bind fun _ => bind fun _ => bind fun _ =>
      settle _ _

end Settles

namespace Program

variable {p : Program} {t : ClassTable}

def KnownLocals (p : Program) (Γ : List (String × Ty)) : Prop :=
  ∀ x t, Γ.lookup x = some t → p.Known t

theorem Visible.known (faithful : t.Faithful p) {self : String} {Γ : List (String × Ty)}
    (hΓ : p.KnownLocals Γ) {x : String} {ty : Ty} (h : p.Visible self Γ x ty) : p.Known ty := by
  rcases h with h | ⟨-, h⟩
  · exact hΓ x ty h
  · exact faithful.field_known _ _ _ h

theorem Target.known (faithful : t.Faithful p) {self : String} {Γ : List (String × Ty)}
    (hΓ : p.KnownLocals Γ) {qualifier x : String} {ty : Ty}
    (h : p.Target self Γ qualifier x ty) : p.Known ty := by
  rcases h with ⟨-, h⟩ | ⟨c, -, h⟩
  · exact h.known faithful hΓ
  · exact faithful.field_known _ _ _ h

theorem SelfClass.known (faithful : t.Faithful p) {self : String} (hself : self ∈ p.classNames)
    {word c : String} (h : p.SelfClass self word c) : p.Known (.plain c) := by
  cases h with
  | this => exact .inr (.inr hself)
  | super hsup => exact .inr (.inr (faithful.extends_target hsup))

theorem HasType.valid (faithful : t.Faithful p) {self : String} (hself : self ∈ p.classNames)
    {Γ : List (String × Ty)} (hΓ : p.KnownLocals Γ) {e : Expr} {ty : Ty}
    (h : p.HasType self Γ e ty) : p.Valid ty := by
  have hint : p.Known .int := .inl rfl
  have hbool : p.Known .boolean := .inr (.inl rfl)
  cases h with
  | int | length | arithmetic | negation | update => exact .inl hint
  | bool | instanceOf | relational | equality | logical | complement => exact .inl hbool
  | str => exact .inl (known_of_builtIn (by decide))
  | selfWord _ hself' => exact .inl (hself'.known faithful hself)
  | null => exact .inr (.inr rfl)
  | named _ _ hvisible => exact .inl (hvisible.known faithful hΓ)
  | field _ _ _ hsees => exact .inl (faithful.field_known _ _ _ hsees)
  | element _ hvisible => exact .inl (hvisible.known faithful hΓ)
  | fieldElement _ _ _ hsees =>
    have hknown := faithful.field_known _ _ _ hsees
    exact .inl hknown
  | selfCall _ hsees | call _ _ _ hsees =>
    rcases faithful.result_known _ _ _ hsees with hvoid | hknown
    · exact .inr (.inl hvoid)
    · exact .inl hknown
  | newObject _ hc => exact .inl (.inr (.inr hc))
  | newArray _ hknown => exact .inl hknown
  | cast _ htarget => exact .inl htarget.1
  | assign _ htarget => exact .inl (htarget.known faithful hΓ)
  | assignElement _ htarget => exact .inl (htarget.known faithful hΓ)

end Program

/-- Typed where nothing is noted about it, `e` quietly gets the types that it has. -/
def Agrees (cx : Context) (vars : Vars) (p : Program) (Γ : List (String × Ty)) (e : Expr) : Prop :=
  ∀ n : Notes, n.Fresh e.visits → ∀ t,
    Quietly (cx.infer vars e) n t ↔ p.HasType cx.self.name Γ e t

section Parts

variable {cx : Context} {vars : Vars} {p : Program} {Γ : List (String × Ty)}

theorem Agrees.bind_iff {α : Type} {e : Expr} (agrees : Agrees cx vars p Γ e) {rest : List Expr}
    (tidy : Tidy (e.visits ++ rest)) {n : Notes} (fresh : n.Fresh (e.visits ++ rest))
    {f : Ty → Check α} {a : α} {Q : Ty → Prop}
    (hf : ∀ t n', Yields (cx.infer vars e) n t n' → p.HasType cx.self.name Γ e t →
      n'.Fresh rest → (Quietly (f t) n' a ↔ Q t)) :
    Quietly (cx.infer vars e >>= f) n a ↔ ∃ t, p.HasType cx.self.name Γ e t ∧ Q t := by
  have hcovers := Covers.infer cx vars e
  constructor
  · intro h
    obtain ⟨n'', h⟩ := h
    obtain ⟨t, n', hinfer, hrest⟩ := yields_bind_iff.mp h
    have htype := (agrees n fresh.left t).mp ⟨n', hinfer⟩
    exact ⟨t, htype, (hf t n' hinfer htype (hcovers.fresh hinfer tidy fresh)).mp ⟨n'', hrest⟩⟩
  · intro h
    obtain ⟨t, htype, hq⟩ := h
    obtain ⟨n', hinfer⟩ := (agrees n fresh.left t).mpr htype
    obtain ⟨n'', hrest⟩ := (hf t n' hinfer htype (hcovers.fresh hinfer tidy fresh)).mpr hq
    exact ⟨n'', yields_bind_iff.mpr ⟨t, n', hinfer, hrest⟩⟩

theorem inferAll_bind_iff {α : Type} {es : List Expr} (agrees : ∀ e ∈ es, Agrees cx vars p Γ e)
    {rest : List Expr} (tidy : Tidy (es.flatMap Expr.visits ++ rest)) {n : Notes}
    (fresh : n.Fresh (es.flatMap Expr.visits ++ rest)) {f : List Ty → Check α} {a : α}
    {Q : List Ty → Prop}
    (hf : ∀ ts n', List.Forall₂ (p.HasType cx.self.name Γ) es ts → n'.Fresh rest →
      (Quietly (f ts) n' a ↔ Q ts)) :
    Quietly (cx.inferAll vars es >>= f) n a ↔
      ∃ ts, List.Forall₂ (p.HasType cx.self.name Γ) es ts ∧ Q ts := by
  induction es generalizing n f Q with
  | nil =>
    rw [Context.inferAll, pure_bind, hf [] n .nil fresh]
    simp
  | cons e es ih =>
    rw [List.flatMap_cons, List.append_assoc] at tidy fresh
    rw [Context.inferAll, bind_assoc]
    rw [(agrees e List.mem_cons_self).bind_iff tidy fresh
      (Q := fun t => ∃ ts, List.Forall₂ (p.HasType cx.self.name Γ) es ts ∧ Q (t :: ts))]
    · constructor
      · intro h
        obtain ⟨t, ht, ts, hts, hq⟩ := h
        exact ⟨t :: ts, .cons ht hts, hq⟩
      · intro h
        obtain ⟨ts, hts, hq⟩ := h
        cases hts with
        | cons ht hts => exact ⟨_, ht, _, hts, hq⟩
    · intro t n' _ ht fresh'
      rw [bind_assoc]
      refine ih (fun e he => agrees e (List.mem_cons_of_mem _ he)) tidy.right fresh' ?_
      intro ts n'' hts fresh''
      rw [pure_bind]
      exact hf (t :: ts) n'' (.cons ht hts) fresh''

end Parts

/-- Typing goes on in a class of the program, with `Γ` in sight. -/
structure Scene (cx : Context) (vars : Vars) (p : Program) (Γ : List (String × Ty)) : Prop where
  faithful : cx.Faithful p
  shows : Shows vars p cx.self.name Γ
  known : p.KnownLocals Γ

namespace Scene

variable {cx : Context} {vars : Vars} {p : Program} {Γ : List (String × Ty)}
  (scene : Scene cx vars p Γ)

include scene

theorem valid {e : Expr} {t : Ty} (h : p.HasType cx.self.name Γ e t) : p.Valid t :=
  h.valid scene.faithful.toFaithful
    ((scene.faithful.mem_classNames _).mpr ⟨cx.self, scene.faithful.self_mem, rfl⟩) scene.known

theorem visible_known {x : String} {t : Ty} (h : p.Visible cx.self.name Γ x t) : p.Known t :=
  h.known scene.faithful.toFaithful scene.known

theorem var {site : Site} {receiver : Expr} {name : String}
    (ih : receiver ≠ .absent → Agrees cx vars p Γ receiver)
    (tidy : Tidy (Expr.var site receiver name).visits) :
    Agrees cx vars p Γ (.var site receiver name) := by
  intro n fresh t
  obtain ⟨hname, tidy⟩ := tidy.inner (by simp)
  have fresh := fresh.inner (by simp)
  rw [Context.infer]
  by_cases hreceiver : receiver = .absent
  · subst hreceiver
    rw [Context.infer, pure_bind, quietly_lift_bind_iff]
    have hrule : ∀ u, cx.varType vars site.line .absent .error name = pure u ↔ _ :=
      fun u => scene.faithful.nameType_iff scene.shows hname
    simp only [hrule, settle_iff fresh, exists_eq_right']
    constructor
    · intro h
      rcases h with ⟨c, hself, rfl⟩ | ⟨rfl, rfl⟩ | ⟨hfree, hvisible⟩
      · exact .selfWord site hself
      · exact .null site
      · exact .named site hfree hvisible
    · intro h
      cases h with
      | selfWord _ hself => exact .inl ⟨_, hself, rfl⟩
      | null => exact .inr (.inl ⟨rfl, rfl⟩)
      | named _ hfree hvisible => exact .inr (.inr ⟨hfree, hvisible⟩)
      | length _ h => cases h
  · rw [(ih hreceiver).bind_iff tidy fresh
      (Q := fun rt => cx.memberType site.line receiver rt name = pure t)]
    · constructor
      · intro h
        obtain ⟨rt, hrt, h⟩ := h
        rcases (scene.faithful.memberType_iff (scene.valid hrt)).mp h with
          ⟨harray, rfl, rfl⟩ | ⟨-, h⟩
        · exact .length site hrt harray
        · obtain ⟨inner, word, c, rfl, hself, hsees⟩ := scene.faithful.receiverField_iff.mp h
          exact .field site inner hself hsees
      · intro h
        cases h with
        | selfWord | null | named => exact absurd rfl hreceiver
        | field _ inner hself hsees =>
          have hrt : p.HasType cx.self.name Γ (.var inner .absent _) _ := .selfWord inner hself
          refine ⟨_, hrt, (scene.faithful.memberType_iff (scene.valid hrt)).mpr (.inr ⟨rfl, ?_⟩)⟩
          exact scene.faithful.receiverField_iff.mpr ⟨inner, _, _, rfl, hself, hsees⟩
        | length _ hrt harray =>
          exact ⟨_, hrt, (scene.faithful.memberType_iff (scene.valid hrt)).mpr
            (.inl ⟨harray, rfl, rfl⟩)⟩
    · intro rt n' _ _ fresh'
      rw [quietly_lift_bind_iff]
      rw [Context.varType, Expr.isAbsent_eq_false hreceiver]
      simp only [Bool.false_eq_true, if_false, settle_iff fresh', exists_eq_right']

theorem indexing_iff {e index : Expr} (ih : Agrees cx vars p Γ index)
    (tidy : Tidy (index.visits ++ [e])) {n : Notes} (fresh : n.Fresh (index.visits ++ [e]))
    {base : Ty} (hbase : p.Known base) {line : Int} {name : String} {t : Ty} :
    Quietly (do
      let indexType ← cx.infer vars index
      cx.indexed index indexType
      let u ← cx.elementType line name base
      Check.settle e u) n t ↔
    p.HasType cx.self.name Γ index .int ∧ base.isArray = true ∧ t = base.elem := by
  rw [ih.bind_iff tidy fresh
    (Q := fun indexType => indexType = .int ∧ base.isArray = true ∧ t = base.elem)]
  · simp
  · intro indexType n' _ htype fresh'
    simp only [quietly_lift_bind_iff, scene.faithful.indexed_iff (scene.valid htype),
      scene.faithful.elementType_iff hbase, settle_iff fresh', exists_const, and_assoc]
    simp

theorem element {site : Site} {receiver : Expr} {name : String} {index : Expr}
    (ihr : receiver ≠ .absent → Agrees cx vars p Γ receiver)
    (ihi : index ≠ .absent → Agrees cx vars p Γ index)
    (tidy : Tidy (Expr.element site receiver name index).visits) :
    Agrees cx vars p Γ (.element site receiver name index) := by
  intro n fresh t
  obtain ⟨⟨hname, hindex⟩, tidy⟩ := tidy.inner (by simp)
  have fresh := fresh.inner (by simp)
  rw [Context.infer]
  by_cases hreceiver : receiver = .absent
  · subst hreceiver
    simp only [Expr.inner, Expr.visits_absent, List.nil_append] at tidy fresh
    rw [Context.infer, pure_bind, quietly_lift_bind_iff]
    have hrule : ∀ u, cx.indexedType vars site.line .absent .error name = pure u ↔ _ :=
      fun u => Context.Faithful.variableType_iff scene.shows hname
    simp only [hrule]
    refine (exists_congr fun base => and_congr_right fun hvisible =>
      scene.indexing_iff (ihi hindex) tidy fresh (scene.visible_known hvisible)).trans ?_
    constructor
    · intro h
      obtain ⟨base, hvisible, hint, harray, rfl⟩ := h
      exact .element site hvisible harray hint
    · intro h
      cases h with
      | element _ hvisible harray hint => exact ⟨_, hvisible, hint, harray, rfl⟩
  · simp only [Expr.inner, List.append_assoc] at tidy fresh
    rw [(ihr hreceiver).bind_iff tidy fresh
      (Q := fun rt => ∃ base, cx.receiverField site.line receiver name = pure base ∧
        p.HasType cx.self.name Γ index .int ∧ base.isArray = true ∧ t = base.elem)]
    · simp only [scene.faithful.receiverField_iff]
      constructor
      · intro h
        obtain ⟨rt, -, base, ⟨inner, word, c, rfl, hself, hsees⟩, hint, harray, rfl⟩ := h
        exact .fieldElement site inner hself hsees harray hint
      · intro h
        cases h with
        | element => exact absurd rfl hreceiver
        | fieldElement _ inner hself hsees harray hint =>
          exact ⟨_, .selfWord inner hself, _, ⟨inner, _, _, rfl, hself, hsees⟩, hint, harray, rfl⟩
    · intro rt n' _ hrt fresh'
      rw [quietly_lift_bind_iff, Context.indexedType, Expr.isAbsent_eq_false hreceiver,
        scene.faithful.valid_not_error (scene.valid hrt)]
      refine exists_congr fun base => and_congr_right fun hfield => ?_
      obtain ⟨_, _, _, -, -, hsees⟩ := scene.faithful.receiverField_iff.mp hfield
      have hknown := scene.faithful.field_known _ _ _ hsees
      exact scene.indexing_iff (ihi hindex) tidy.right fresh' hknown

theorem valid_all {es : List Expr} {ts : List Ty}
    (h : List.Forall₂ (p.HasType cx.self.name Γ) es ts) : ∀ t ∈ ts, p.Valid t := by
  induction h with
  | nil => simp
  | cons ht _ ih =>
    rw [List.forall_mem_cons]
    exact ⟨scene.valid ht, ih⟩

theorem calling_iff {e : Expr} {args : List Expr} (ih : ∀ a ∈ args, Agrees cx vars p Γ a)
    (tidy : Tidy (args.flatMap Expr.visits ++ [e])) {n : Notes}
    (fresh : n.Fresh (args.flatMap Expr.visits ++ [e])) {owner : ClassInfo}
    (howner : owner ∈ cx.table.classes) {line : Int} {method : String} {t : Ty} :
    Quietly (do
      let argTypes ← cx.inferAll vars args
      let u ← cx.callType line (some owner) method (args.zip argTypes)
      Check.settle e u) n t ↔
    ∃ params, List.Forall₂ (p.HasType cx.self.name Γ) args params ∧
      p.Sees ClassDecl.HasMethod owner.name method ⟨params, t⟩ := by
  refine inferAll_bind_iff ih tidy fresh ?_
  intro types n' htypes fresh'
  simp only [quietly_lift_bind_iff, settle_iff fresh', exists_eq_right',
    scene.faithful.callType_iff howner htypes.length_eq (scene.valid_all htypes)]

theorem dispatch {site : Site} {receiver : Expr} {method : String} {args : List Expr}
    (ihr : receiver ≠ .absent → Agrees cx vars p Γ receiver)
    (iha : ∀ a ∈ args, a ≠ .absent → Agrees cx vars p Γ a)
    (tidy : Tidy (Expr.dispatch site receiver method args).visits) :
    Agrees cx vars p Γ (.dispatch site receiver method args) := by
  intro n fresh t
  obtain ⟨hargs, tidy⟩ := tidy.inner (by simp)
  have fresh := fresh.inner (by simp)
  have iha : ∀ a ∈ args, Agrees cx vars p Γ a :=
    fun a ha => iha a ha fun habsent => hargs (habsent ▸ ha)
  rw [Context.infer]
  by_cases hreceiver : receiver = .absent
  · -- a call without a receiver goes to the class itself
    subst hreceiver
    simp only [Expr.inner, Expr.visits_absent, List.nil_append] at tidy fresh
    rw [Context.infer, pure_bind, quietly_lift_bind_iff]
    have hrule : ∀ owner, cx.receiverClass site.line .absent .error method = pure owner ↔
        owner = some cx.self := fun owner => Reported.pure_eq_pure_iff
    simp only [hrule, exists_eq_left, scene.calling_iff iha tidy fresh scene.faithful.self_mem]
    constructor
    · intro h
      obtain ⟨params, hparams, hsees⟩ := h
      exact .selfCall site hsees hparams
    · intro h
      cases h with
      | selfCall _ hsees hparams => exact ⟨_, hparams, hsees⟩
      | call _ h => cases h
  · simp only [Expr.inner, List.append_assoc] at tidy fresh
    rw [(ihr hreceiver).bind_iff tidy fresh
      (Q := fun rt => ∃ o ∈ cx.table.classes, p.CallableAs rt o.name ∧ ∃ params,
        List.Forall₂ (p.HasType cx.self.name Γ) args params ∧
          p.Sees ClassDecl.HasMethod o.name method ⟨params, t⟩)]
    · constructor
      · intro h
        obtain ⟨rt, hrt, o, -, hcallable, params, hparams, hsees⟩ := h
        exact .call site hrt hcallable hsees hparams
      · intro h
        cases h with
        | selfCall => exact absurd rfl hreceiver
        | call _ hrt hcallable hsees hparams =>
          obtain ⟨o, ho, rfl⟩ := (scene.faithful.mem_classNames _).mp
            (scene.faithful.callable_mem hcallable)
          exact ⟨_, hrt, o, ho, hcallable, _, hparams, hsees⟩
    · intro rt n' _ hrt fresh'
      simp only [quietly_lift_bind_iff,
        scene.faithful.receiverClass_iff hreceiver (scene.valid hrt)]
      constructor
      · intro h
        obtain ⟨_, ⟨o, ho, rfl, hcallable⟩, h⟩ := h
        exact ⟨o, ho, hcallable, (scene.calling_iff iha tidy.right fresh' ho).mp h⟩
      · intro h
        obtain ⟨o, ho, hcallable, h⟩ := h
        exact ⟨_, ⟨o, ho, rfl, hcallable⟩, (scene.calling_iff iha tidy.right fresh' ho).mpr h⟩

theorem newObject {site : Site} {className : String} :
    Agrees cx vars p Γ (.newObject site className) := by
  intro n fresh t
  have fresh := fresh.inner (by simp)
  rw [Context.infer, quietly_lift_bind_iff]
  simp only [scene.faithful.objectType_iff, settle_iff fresh, exists_eq_right']
  constructor
  · intro h
    obtain ⟨hc, rfl⟩ := h
    exact .newObject site hc
  · intro h
    cases h with
    | newObject _ hc => exact ⟨hc, rfl⟩

theorem newArray {site : Site} {elemName : String} {size : Expr}
    (ih : size ≠ .absent → Agrees cx vars p Γ size)
    (tidy : Tidy (Expr.newArray site elemName size).visits) :
    Agrees cx vars p Γ (.newArray site elemName size) := by
  intro n fresh t
  obtain ⟨hsize, tidy⟩ := tidy.inner (by simp)
  rw [Context.infer, (ih hsize).bind_iff tidy (fresh.inner (by simp))
    (Q := fun sizeType => p.Known (.plain elemName) ∧ sizeType = .int ∧ t = ⟨elemName, true⟩)]
  · constructor
    · intro h
      obtain ⟨_, hint, hknown, rfl, rfl⟩ := h
      exact .newArray site hknown hint
    · intro h
      cases h with
      | newArray _ hknown hint => exact ⟨_, hint, hknown, rfl, rfl⟩
  · intro sizeType n' _ htype fresh'
    simp only [quietly_lift_bind_iff, settle_iff fresh', exists_eq_right',
      scene.faithful.arrayType_iff (scene.valid htype)]

theorem instanceOf {site : Site} {operand : Expr} {target : Ty}
    (ih : operand ≠ .absent → Agrees cx vars p Γ operand)
    (tidy : Tidy (Expr.instanceOf site operand target).visits) :
    Agrees cx vars p Γ (.instanceOf site operand target) := by
  intro n fresh t
  obtain ⟨hoperand, tidy⟩ := tidy.inner (by simp)
  rw [Context.infer, (ih hoperand).bind_iff tidy (fresh.inner (by simp))
    (Q := fun u => p.Reference target ∧ u ∉ [.void, .int, .boolean] ∧ t = .boolean)]
  · constructor
    · intro h
      obtain ⟨u, hu, htarget, hform, rfl⟩ := h
      exact .instanceOf site htarget hu hform
    · intro h
      cases h with
      | instanceOf _ htarget hu hform => exact ⟨_, hu, htarget, hform, rfl⟩
  · intro u n' _ _ fresh'
    simp only [quietly_lift_bind_iff, settle_iff fresh', exists_eq_right',
      scene.faithful.instanceOfType_iff]

theorem cast {site : Site} {target : Ty} {operand : Expr}
    (ih : operand ≠ .absent → Agrees cx vars p Γ operand)
    (tidy : Tidy (Expr.cast site target operand).visits) :
    Agrees cx vars p Γ (.cast site target operand) := by
  intro n fresh t
  obtain ⟨hoperand, tidy⟩ := tidy.inner (by simp)
  rw [Context.infer, (ih hoperand).bind_iff tidy (fresh.inner (by simp))
    (Q := fun u => p.Reference target ∧ (u = .null ∨ (p.Reference u ∧ p.Related u target)) ∧
      t = target)]
  · constructor
    · intro h
      obtain ⟨u, hu, htarget, hrelated, rfl⟩ := h
      exact .cast site htarget hu hrelated
    · intro h
      cases h with
      | cast _ htarget hu hrelated => exact ⟨_, hu, htarget, hrelated, rfl⟩
  · intro u n' _ hu fresh'
    rw [quietly_lift_bind_iff]
    refine (exists_congr fun outcome => and_congr_right fun _ =>
      (markCast_settle_iff fresh').trans eq_comm).trans ?_
    exact scene.faithful.castType_iff (scene.valid hu)

theorem assign {site : Site} {qualifier name : String} {value : Expr}
    (ih : value ≠ .absent → Agrees cx vars p Γ value)
    (tidy : Tidy (Expr.assign site qualifier name value).visits) :
    Agrees cx vars p Γ (.assign site qualifier name value) := by
  intro n fresh t
  obtain ⟨⟨hname, hvalue⟩, tidy⟩ := tidy.inner (by simp)
  have fresh := fresh.inner (by simp)
  rw [Context.infer, quietly_lift_bind_iff]
  have hrest : ∀ target, p.Target cx.self.name Γ qualifier name target →
      (Quietly (do
        let valueType ← cx.infer vars value
        cx.assigned target value valueType name
        Check.settle (.assign site qualifier name value) target) n t ↔
      ∃ s, p.HasType cx.self.name Γ value s ∧ p.Assignable target s ∧ t = target) := by
    intro target htarget
    have hknown := htarget.known scene.faithful.toFaithful scene.known
    refine (ih hvalue).bind_iff tidy fresh ?_
    intro s n' _ hs fresh'
    simp only [quietly_lift_bind_iff, settle_iff fresh', exists_const,
      scene.faithful.assigned_iff hknown (scene.valid hs)]
  simp only [scene.faithful.targetType_iff scene.shows hname]
  refine (exists_congr fun target => and_congr_right (hrest target)).trans ?_
  constructor
  · intro h
    obtain ⟨target, htarget, s, hs, hassignable, rfl⟩ := h
    exact .assign site htarget hs hassignable
  · intro h
    cases h with
    | assign _ htarget hs hassignable => exact ⟨_, htarget, _, hs, hassignable, rfl⟩

theorem binary {site : Site} {op : BinaryOp} {left right : Expr}
    (ihl : left ≠ .absent → Agrees cx vars p Γ left)
    (ihr : right ≠ .absent → Agrees cx vars p Γ right)
    (tidy : Tidy (Expr.binary site op left right).visits) :
    Agrees cx vars p Γ (.binary site op left right) := by
  intro n fresh t
  obtain ⟨⟨hleft, hright⟩, tidy⟩ := tidy.inner (by simp)
  have fresh := fresh.inner (by simp)
  simp only [Expr.inner, List.append_assoc] at tidy fresh
  rw [Context.infer, (ihl hleft).bind_iff tidy fresh
    (Q := fun lt => ∃ rt, p.HasType cx.self.name Γ right rt ∧
      cx.binaryType site.line op lt rt = pure t)]
  · constructor
    · intro h
      obtain ⟨lt, hlt, rt, hrt, h⟩ := h
      rcases (scene.faithful.binaryType_iff (scene.valid hlt) (scene.valid hrt)).mp h with
        ⟨hop, rfl, rfl, rfl⟩ | ⟨hop, rfl, rfl, rfl⟩ | ⟨hop, hcomparable, rfl⟩ | ⟨hop, rfl, rfl, rfl⟩
      · exact .arithmetic site hop hlt hrt
      · exact .relational site hop hlt hrt
      · exact .equality site hop hlt hrt hcomparable
      · exact .logical site hop hlt hrt
    · intro h
      have hrule {lt rt : Ty} (hlt : p.HasType cx.self.name Γ left lt)
          (hrt : p.HasType cx.self.name Γ right rt) :
          cx.binaryType site.line op lt rt = pure t ↔ _ :=
        scene.faithful.binaryType_iff (scene.valid hlt) (scene.valid hrt)
      cases h with
      | arithmetic _ hop hlt hrt =>
        exact ⟨_, hlt, _, hrt, (hrule hlt hrt).mpr (.inl ⟨hop, rfl, rfl, rfl⟩)⟩
      | relational _ hop hlt hrt =>
        exact ⟨_, hlt, _, hrt, (hrule hlt hrt).mpr (.inr (.inl ⟨hop, rfl, rfl, rfl⟩))⟩
      | equality _ hop hlt hrt hcomparable =>
        exact ⟨_, hlt, _, hrt, (hrule hlt hrt).mpr (.inr (.inr (.inl ⟨hop, hcomparable, rfl⟩)))⟩
      | logical _ hop hlt hrt =>
        exact ⟨_, hlt, _, hrt, (hrule hlt hrt).mpr (.inr (.inr (.inr ⟨hop, rfl, rfl, rfl⟩)))⟩
  · intro lt n' _ _ fresh'
    refine (ihr hright).bind_iff tidy.right fresh' ?_
    intro rt n'' _ _ fresh''
    simp only [quietly_lift_bind_iff, settle_iff fresh'', exists_eq_right']

theorem assignElement {site : Site} {qualifier name : String} {index value : Expr}
    (ihi : index ≠ .absent → Agrees cx vars p Γ index)
    (ihv : value ≠ .absent → Agrees cx vars p Γ value)
    (tidy : Tidy (Expr.assignElement site qualifier name index value).visits) :
    Agrees cx vars p Γ (.assignElement site qualifier name index value) := by
  intro n fresh t
  obtain ⟨⟨hname, hindex, hvalue⟩, tidy⟩ := tidy.inner (by simp)
  have fresh := fresh.inner (by simp)
  simp only [Expr.inner, List.append_assoc] at tidy fresh
  rw [Context.infer, quietly_lift_bind_iff]
  have hrest : ∀ target, p.Target cx.self.name Γ qualifier name target →
      (Quietly (do
        let indexType ← cx.infer vars index
        cx.indexed index indexType
        let elem ← cx.targetElement site.line name target
        let valueType ← cx.infer vars value
        cx.assigned elem value valueType name
        Check.settle (.assignElement site qualifier name index value) elem) n t ↔
      ∃ indexType, p.HasType cx.self.name Γ index indexType ∧ indexType = .int ∧
        target.isArray = true ∧ ∃ s, p.HasType cx.self.name Γ value s ∧
          p.Assignable target.elem s ∧ t = target.elem) := by
    intro target htarget
    have hknown := htarget.known scene.faithful.toFaithful scene.known
    refine (ihi hindex).bind_iff tidy fresh ?_
    intro indexType n' _ hint fresh'
    simp only [quietly_lift_bind_iff, scene.faithful.indexed_iff (scene.valid hint), exists_const,
      scene.faithful.targetElement_iff hknown, and_assoc, exists_and_left, exists_eq_left]
    refine and_congr_right fun _ => and_congr_right fun _ => ?_
    refine (ihv hvalue).bind_iff tidy.right fresh' ?_
    intro s n'' _ hs fresh''
    have helem : p.Known target.elem := hknown
    simp only [quietly_lift_bind_iff, settle_iff fresh'', exists_const,
      scene.faithful.assigned_iff helem (scene.valid hs)]
  simp only [scene.faithful.targetType_iff scene.shows hname]
  refine (exists_congr fun target => and_congr_right (hrest target)).trans ?_
  constructor
  · intro h
    obtain ⟨target, htarget, _, hint, rfl, harray, s, hs, hassignable, rfl⟩ := h
    exact .assignElement site htarget harray hint hs hassignable
  · intro h
    cases h with
    | assignElement _ htarget harray hint hs hassignable =>
      exact ⟨_, htarget, _, hint, rfl, harray, _, hs, hassignable, rfl⟩

omit scene in
theorem var_receiver_noted {site : Site} {receiver : Expr} {name : String}
    (hreceiver : receiver ≠ .absent) {n n' : Notes} {u : Ty}
    (h : Yields (cx.infer vars (.var site receiver name)) n u n') :
    ∃ rt n₁ v, Yields (cx.infer vars receiver) n rt n₁ ∧
      cx.memberType site.line receiver rt name = pure v ∧
      u = n₁.settled (.var site receiver name) v ∧ n'.typeOf? receiver = some rt := by
  obtain ⟨rt, n₁, hrt, hrest⟩ := yields_bind_iff.mp h
  obtain ⟨v, _, hv, hsettle⟩ := yields_bind_iff.mp hrest
  obtain ⟨hrule, rfl⟩ := yields_lift_iff.mp hv
  rw [Context.varType, Expr.isAbsent_eq_false hreceiver] at hrule
  have hother : receiver ≠ .var site receiver name := by
    intro h
    have hsize := congrArg sizeOf h
    simp at hsize
    omega
  cases Reported.pure_eq_pure_iff.mp hsettle
  refine ⟨rt, _, v, hrt, hrule, rfl, ?_⟩
  rw [Notes.typeOf?_record, if_neg hother]
  exact Settles.infer cx vars hreceiver _ _ _ hrt

omit scene in
theorem isStorage_var {site : Site} {receiver : Expr} {name : String}
    (hreceiver : receiver ≠ .absent) {n : Notes} {rt : Ty} (hnoted : n.typeOf? receiver = some rt) :
    n.isStorage (.var site receiver name) = !rt.isArray := by
  have hdef : n.isStorage (.var site receiver name) =
      !((n.typeOf? receiver).map (·.isArray)).getD false := by
    cases receiver with
    | absent => exact absurd rfl hreceiver
    | _ => rfl
  rw [hdef, hnoted]
  rfl

theorem isStorage_var_iff {site : Site} {receiver : Expr} {name : String}
    (hreceiver : receiver ≠ .absent) (tidy : Tidy (Expr.var site receiver name).visits)
    {n n' : Notes} (fresh : n.Fresh (Expr.var site receiver name).visits) {u : Ty}
    (hinfer : Yields (cx.infer vars (.var site receiver name)) n u n') (hvalid : p.Valid u) :
    n'.isStorage (.var site receiver name) = true ↔ (Expr.var site receiver name).Place := by
  obtain ⟨rt, n₁, v, hrt, hrule, hsettled, hnoted⟩ := var_receiver_noted hreceiver hinfer
  have tidy := (tidy.inner (by simp)).2
  have fresh := fresh.inner (by simp)
  rw [isStorage_var hreceiver hnoted, Bool.not_eq_true']
  constructor
  · intro hplain
    have fresh₁ := (Covers.infer cx vars receiver).fresh hrt tidy fresh
    have hv : u = v := (settle_iff fresh₁).mp ⟨_, by rw [hsettled]; rfl⟩
    rw [hv] at hvalid
    rw [Context.memberType] at hrule
    split at hrule
    · rw [Reported.pure_eq_pure_iff] at hrule
      have herror := scene.faithful.valid_not_error hvalid
      rw [hrule] at herror
      cases herror
    · rw [hplain] at hrule
      obtain ⟨inner, word, c, rfl, hself, -⟩ := scene.faithful.receiverField_iff.mp hrule
      exact .field site inner word name hself.word
  · intro hplace
    cases hplace with
    | named => exact absurd rfl hreceiver
    | field _ inner word _ hword =>
      have agrees := scene.var (fun h => absurd rfl h) tidy.left
      have htype := (agrees n fresh.left rt).mp ⟨n₁, hrt⟩
      cases htype with
      | selfWord => rfl
      | null => simp at hword
      | named _ hfree => simp_all
      | length _ h => cases h

theorem isStorage_iff {operand : Expr} (tidy : Tidy operand.visits) {n n' : Notes}
    (fresh : n.Fresh operand.visits) {u : Ty} (hinfer : Yields (cx.infer vars operand) n u n')
    (hvalid : p.Valid u) : n'.isStorage operand = true ↔ operand.Place := by
  cases operand with
  | var site receiver name =>
    by_cases hreceiver : receiver = .absent
    · subst hreceiver
      exact iff_of_true rfl (.named site name)
    · exact scene.isStorage_var_iff hreceiver tidy fresh hinfer hvalid
  | element site receiver name index => exact iff_of_true rfl (.element site receiver name index)
  | _ =>
    refine iff_of_false Bool.false_ne_true ?_
    intro h
    cases h

theorem unary {site : Site} {op : UnaryOp} {trailing : Bool} {operand : Expr}
    (ih : operand ≠ .absent → Agrees cx vars p Γ operand)
    (tidy : Tidy (Expr.unary site op trailing operand).visits) :
    Agrees cx vars p Γ (.unary site op trailing operand) := by
  intro n fresh t
  obtain ⟨hoperand, tidy⟩ := tidy.inner (by simp)
  have fresh := fresh.inner (by simp)
  rw [Context.infer, (ih hoperand).bind_iff tidy fresh
    (Q := fun u => (op = .neg ∧ u = .int ∧ t = .int) ∨ (op = .not ∧ u = .boolean ∧ t = .boolean) ∨
      ((op = .incr ∨ op = .decr) ∧ operand.Place ∧ u = .int ∧ t = .int))]
  · constructor
    · intro h
      obtain ⟨u, hu, ⟨rfl, rfl, rfl⟩ | ⟨rfl, rfl, rfl⟩ | ⟨hop, hplace, rfl, rfl⟩⟩ := h
      · exact .negation site trailing hu
      · exact .complement site trailing hu
      · exact .update site trailing hop hplace hu
    · intro h
      cases h with
      | negation _ _ hu => exact ⟨_, hu, .inl ⟨rfl, rfl, rfl⟩⟩
      | complement _ _ hu => exact ⟨_, hu, .inr (.inl ⟨rfl, rfl, rfl⟩)⟩
      | update _ _ hop hplace hu => exact ⟨_, hu, .inr (.inr ⟨hop, hplace, rfl, rfl⟩)⟩
  · intro u n' hinfer hu fresh'
    have hstorage := scene.isStorage_iff tidy.left fresh.left hinfer (scene.valid hu)
    rw [← hstorage]
    refine (quietly_get_bind_iff).trans ?_
    simp only [quietly_lift_bind_iff, settle_iff fresh', exists_eq_right',
      scene.faithful.unaryType_iff (scene.valid hu)]

/-- Typing agrees with the specification on every tidy expression that is there. -/
theorem agrees (e : Expr) (he : e ≠ .absent) (tidy : Tidy e.visits) : Agrees cx vars p Γ e := by
  induction e with
  | absent => exact absurd rfl he
  | int site value =>
    intro n fresh t
    rw [Context.infer, settle_iff (fresh.inner he)]
    exact ⟨fun h => h ▸ .int site value, fun h => by cases h; rfl⟩
  | bool site value =>
    intro n fresh t
    rw [Context.infer, settle_iff (fresh.inner he)]
    exact ⟨fun h => h ▸ .bool site value, fun h => by cases h; rfl⟩
  | str site value =>
    intro n fresh t
    rw [Context.infer, settle_iff (fresh.inner he)]
    exact ⟨fun h => h ▸ .str site value, fun h => by cases h; rfl⟩
  | var site receiver name ih =>
    have hinner := (tidy.inner he).2
    exact scene.var (fun h => ih h hinner.left) tidy
  | element site receiver name index ihr ihi =>
    have hinner := (tidy.inner he).2.left
    exact scene.element (fun h => ihr h hinner.left) (fun h => ihi h hinner.right) tidy
  | dispatch site receiver method args ihr iha =>
    have hinner := (tidy.inner he).2.left
    exact scene.dispatch (fun h => ihr h hinner.left)
      (fun a ha h => iha a ha h (hinner.right.of_mem ha)) tidy
  | newObject site className => exact scene.newObject
  | newArray site elemName size ih =>
    have hinner := (tidy.inner he).2
    exact scene.newArray (fun h => ih h hinner.left) tidy
  | instanceOf site operand target ih =>
    have hinner := (tidy.inner he).2
    exact scene.instanceOf (fun h => ih h hinner.left) tidy
  | cast site target operand ih =>
    have hinner := (tidy.inner he).2
    exact scene.cast (fun h => ih h hinner.left) tidy
  | assign site qualifier name value ih =>
    have hinner := (tidy.inner he).2
    exact scene.assign (fun h => ih h hinner.left) tidy
  | assignElement site qualifier name index value ihi ihv =>
    have hinner := (tidy.inner he).2.left
    exact scene.assignElement (fun h => ihi h hinner.left) (fun h => ihv h hinner.right) tidy
  | binary site op left right ihl ihr =>
    have hinner := (tidy.inner he).2.left
    exact scene.binary (fun h => ihl h hinner.left) (fun h => ihr h hinner.right) tidy
  | unary site op trailing operand ih =>
    have hinner := (tidy.inner he).2
    exact scene.unary (fun h => ih h hinner.left) tidy

end Scene

end ClassCheck
