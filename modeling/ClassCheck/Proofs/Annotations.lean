import ClassCheck.Proofs.CallLog
import ClassCheck.Proofs.Gate

/-!
# Types and marks that an analysis leaves

Whatever calls an analysis makes, and even if one expression stands in several places, every call
answers the type that is noted in the end, and the mark of a cast says what that type says. In a
program that is accepted, a cast without the mark goes toward a descendant.
-/

namespace ClassCheck

/-- The notes that calls among the classes of `t` can lead to. -/
inductive ClassTable.Reaches (t : ClassTable) : Notes → Prop
  | empty : t.Reaches Notes.empty
  | call {n : Notes} (self : ClassInfo) (vars : Vars) (e : Expr) : t.Reaches n →
      t.Reaches (Context.infer ⟨t, self⟩ vars e n).value.2

namespace ClassTable.Reaches

variable {t : ClassTable} {n k : Notes}

theorem coherent (h : t.Reaches n) : t.Coherent n := by
  induction h with
  | empty => exact .empty t
  | call self vars e _ ih =>
    have hsettles : Context.Settles ⟨t, self⟩ vars _ e := Context.settles vars ih e
    exact hsettles.coherent

theorem kept (h : t.Reaches n) (self : ClassInfo) (vars : Vars) (e : Expr) :
    n.Kept (Context.infer ⟨t, self⟩ vars e n).value.2 := by
  have hsettles : Context.Settles ⟨t, self⟩ vars n e := Context.settles vars h.coherent e
  exact hsettles.kept

theorem after {c : Call} (hc : c.context.table = t) (h : t.Reaches c.notes) :
    t.Reaches c.after ∧ c.notes.Kept c.after := by
  subst hc
  exact ⟨.call c.context.self c.vars c.expr h, h.kept c.context.self c.vars c.expr⟩

theorem chained {cs : List Call} (h : t.Reaches n) (hcs : t.Chained n cs k) :
    t.Reaches k ∧ n.Kept k := by
  induction cs generalizing n with
  | nil =>
    cases hcs
    exact ⟨h, .refl _⟩
  | cons c cs ih =>
    obtain ⟨htable, rfl, hrest⟩ := hcs
    obtain ⟨hafter, hkept⟩ := h.after htable
    obtain ⟨hend, hkept'⟩ := ih hafter hrest
    exact ⟨hend, hkept.trans hkept'⟩

end ClassTable.Reaches

/-- A call made somewhere on the way to the notes `k` and the reports `rs`. -/
structure Call.On (t : ClassTable) (k : Notes) (rs : List (Located TypingProblem)) (c : Call) :
    Prop where
  table : c.context.table = t
  reached : t.Reaches c.notes
  kept : c.after.Kept k
  reports : c.run.reports ⊆ rs

theorem ClassTable.Reaches.on {t : ClassTable} {n k : Notes} {rs : List (Located TypingProblem)}
    {cs : List Call} (h : t.Reaches n) (hcs : t.Chained n cs k)
    (hreports : ∀ c ∈ cs, c.run.reports ⊆ rs) : ∀ c ∈ cs, c.On t k rs := by
  induction cs generalizing n with
  | nil => simp
  | cons c cs ih =>
    obtain ⟨htable, rfl, hrest⟩ := hcs
    have hafter := (h.after htable).1
    rw [List.forall_mem_cons] at hreports ⊢
    exact ⟨⟨htable, h, (hafter.chained hrest).2, hreports.1⟩, ih hafter hrest hreports.2⟩

namespace Call

variable {c p : Call}

theorem exists_part {e : Expr} (he : e ∈ c.expr.parts) : ∃ p ∈ c.parts, p.expr = e := by
  rw [← List.mem_map, parts, Context.map_expr_callsFor]
  exact he

theorem reports_part (hp : p ∈ c.parts) : p.run.reports ⊆ c.run.reports := by
  have hrun : c.run = _ := Context.infer_eq (expr_ne_absent hp) c.notes
  rw [hrun]
  apply Context.reports_judgement (j := ⟨p.answer, p.run.reports⟩)
  · rw [Context.findings_eq_calls, List.length_map, ← List.length_map Call.expr,
      Context.map_expr_callsFor]
  · rw [Context.findings_eq_calls]
    exact List.mem_map_of_mem hp

theorem kept_parts (he : c.expr ≠ .absent) :
    (c.context.findings c.vars c.expr.parts c.notes).2.Kept c.after := by
  have hrun : c.run = _ := Context.infer_eq he c.notes
  rw [after, hrun]
  exact Notes.kept_conclude _ _ _

namespace On

variable {t : ClassTable} {k : Notes} {rs : List (Located TypingProblem)}

theorem part (h : c.On t k rs) (hp : p ∈ c.parts) : p.On t k rs := by
  obtain ⟨rfl, hreached, hkept, hreports⟩ := h
  have hchained := ClassTable.Chained.callsFor c.context c.vars c.expr.parts c.notes
  have hon := hreached.on hchained (fun _ => reports_part) p hp
  exact ⟨hon.table, hon.reached, hon.kept.trans ((kept_parts (expr_ne_absent hp)).trans hkept),
    List.Subset.trans hon.reports hreports⟩

theorem typeOf? (h : c.On t k rs) (he : c.expr ≠ .absent) : k.typeOf? c.expr = some c.answer := by
  obtain ⟨rfl, hreached, hkept, -⟩ := h
  have hanswers := (Context.settles c.vars hreached.coherent c.expr).answers
  exact (hanswers.kept hkept).typeOf? he

end On

theorem reports_cast {site : Site} {target : Ty} {operand : Expr}
    (h : c.expr = .cast site target operand) : ∃ p ∈ c.parts, p.expr = operand ∧
      (c.context.castType site.line target p.answer).reports ⊆ c.run.reports := by
  have hrun : c.run = _ := Context.infer_eq (by rw [h]; simp) c.notes
  refine ⟨⟨c.context, c.vars, operand, c.notes⟩, ?_, rfl, ?_⟩
  · rw [parts, h]
    exact List.mem_singleton_self _
  · rw [hrun, h]
    exact List.subset_append_right _ _

end Call

namespace Analysis.Makes

variable {a : Analysis}

theorem of_visits {c : Call} (hc : a.Makes c) {e : Expr} (he : e ∈ c.expr.visits) :
    ∃ d, a.Makes d ∧ d.expr = e := by
  generalize hx : c.expr = x at he
  induction x using Expr.parts_induction generalizing c with
  | step x ih =>
    by_cases habsent : x = .absent
    · rw [habsent, Expr.visits_absent] at he
      cases he
    · rw [Expr.visits_eq_parts habsent] at he
      rcases List.mem_cons.mp he with rfl | he
      · exact ⟨c, hc, hx⟩
      · obtain ⟨y, hy, he⟩ := List.mem_flatMap.mp he
        obtain ⟨p, hp, hpy⟩ := Call.exists_part (hx ▸ hy)
        exact ih y hy (hc.part hp) hpy he

end Analysis.Makes

section Analyze

variable (program : Option Program) (entry : EntryPoint)

theorem analyze_chained :
    (analyze program entry).table.Chained Notes.empty (analyze program entry).calls
      (analyze program entry).notes :=
  (Traced.checkedClasses _ _).chained Notes.empty

theorem analyze_coherent :
    (analyze program entry).table.Coherent (analyze program entry).notes :=
  (ClassTable.Reaches.empty.chained (analyze_chained program entry)).1.coherent

variable {program entry}

theorem Analysis.Makes.on {c : Call} (hc : (analyze program entry).Makes c) :
    c.On (analyze program entry).table (analyze program entry).notes
      (Hierarchy.ofProgram program).typing.reports := by
  induction hc with
  | @outermost c hc =>
    have traced := Traced.checkedClasses (analyze program entry).table
      ((analyze program entry).order.filter (!·.isBuiltIn))
    rw [← analyze_typing program entry]
    exact ClassTable.Reaches.empty.on (analyze_chained program entry)
      (traced.reports Notes.empty) c hc
  | part _ hp ih => exact ih.part hp

theorem has_analyze_iff_makes {e : Expr} : (analyze program entry).notes.Has e ↔
    e ≠ .absent ∧ ∃ c, (analyze program entry).Makes c ∧ c.expr = e := by
  constructor
  · intro h
    refine ⟨?_, ?_⟩
    · rintro rfl
      rw [Notes.Has, (analyze_coherent program entry).absent] at h
      cases h
    · rcases ((analyze_chained program entry).has_iff e).mp h with hempty | ⟨c, hc, he⟩
      · cases hempty
      · exact (Analysis.Makes.outermost hc).of_visits he
  · rintro ⟨hne, c, hc, rfl⟩
    exact Option.isSome_iff_exists.mpr ⟨c.answer, hc.on.typeOf? hne⟩

end Analyze

theorem Context.castType_down {cx : Context} {line : Int} {target u : Ty}
    (hquiet : (cx.castType line target u).reports = []) (hu : u.isError = false)
    (hdown : (cx.castType line target u).value.upcast ≠ some true) :
    cx.table.isSubtype target u = true ∧ target ≠ u := by
  have refused : ∀ problem,
      (cx.refuse line problem >>= fun t => pure (⟨t, none⟩ : CastOutcome)).reports ≠ [] := by
    intro problem
    simp [refuse, report]
  simp only [castType] at hquiet hdown
  split_ifs at hquiet hdown with htarget hknown herror hnull hoperand hrelated
  · exact absurd hquiet (refused _)
  · exact absurd hquiet (refused _)
  · rw [hu] at herror
    cases herror
  · exact absurd rfl hdown
  · exact absurd hquiet (refused _)
  · exact absurd hquiet (refused _)
  · have hup : cx.table.isSubtype u target = false := by simpa using hdown
    refine ⟨by simpa [hup] using hrelated, ?_⟩
    rintro rfl
    simp [ClassTable.isSubtype] at hup

def Visited (program : Option Program) (e : Expr) : Prop :=
  ∃ d, FirstDeclared ((program.map (·.classes)).getD []) d ∧ d.name ∉ Registry.builtIn.names ∧
    e ∈ (d.tree.visited fun _ => true).filterMap Node.expr?

theorem visited_iff_has {program : Option Program} (entry : EntryPoint) {e : Expr} :
    Visited program e ↔ (analyze program entry).notes.Has e := by
  simp only [Visited, ClassDecl.exprs_visited, has_analyze_notes_iff]

section Casts

variable {program : Option Program} {site : Site} {target : Ty} {operand : Expr}

theorem isUpcast_analyze_iff (entry : EntryPoint)
    (visited : Visited program (.cast site target operand)) :
    (analyze program entry).isUpcast (.cast site target operand) = true ↔
      target.isReference = true ∧ (analyze program entry).table.knows target = true ∧
        operand ≠ .absent ∧ ∃ u, (analyze program entry).typeOf? operand = some u ∧
          u.isError = false ∧ (u.isNull = true ∨
            u.isReference = true ∧ (analyze program entry).table.isSubtype u target = true) := by
  have coherent := analyze_coherent program entry
  refine (coherent.casts _).trans ((and_iff_right ((visited_iff_has entry).mp visited)).trans ?_)
  refine and_congr_right fun _ => and_congr_right fun _ => ?_
  constructor
  · intro h
    refine ⟨?_, h⟩
    rintro rfl
    obtain ⟨u, hu, -⟩ := h
    rw [coherent.absent] at hu
    cases hu
  · exact And.right

theorem cast_down_of_accepted {entry : EntryPoint}
    (accepted : (analyze program entry).isAccepted = true)
    (hnames : ∀ d, some d ∈ (program.map (·.classes)).getD [] → d.name ≠ "<error>")
    (visited : Visited program (.cast site target operand)) (hoperand : operand ≠ .absent)
    (hdown : (analyze program entry).isUpcast (.cast site target operand) = false) :
    ∃ u, (analyze program entry).typeOf? operand = some u ∧
      (analyze program entry).table.isSubtype target u = true ∧ target ≠ u := by
  have quiet := isAccepted_iff.mp accepted
  have htyping : (Hierarchy.ofProgram program).typing.reports = [] := by
    rw [← analyze_typing program entry]
    exact quiet.typing
  obtain ⟨-, c, hc, hcast⟩ := has_analyze_iff_makes.mp ((visited_iff_has entry).mp visited)
  obtain ⟨p, hp, hpoperand, hreports⟩ := Call.reports_cast hcast
  have htype : (analyze program entry).typeOf? operand = some p.answer := by
    rw [← hpoperand]
    exact (hc.part hp).on.typeOf? (hpoperand ▸ hoperand)
  have hresolved : p.answer.isError = false := by
    cases program with
    | none =>
      obtain ⟨d, hd, -⟩ := visited
      cases hd.mem
    | some program => exact (quiet_notes_resolved hnames quiet operand _ htype).2
  have hquiet := List.subset_nil.mp (List.Subset.trans hreports (htyping ▸ hc.on.reports))
  have htable := hc.on.table
  refine ⟨p.answer, htype, ?_⟩
  rw [← htable]
  refine Context.castType_down hquiet hresolved fun hup => ?_
  obtain ⟨href, hknown, herror, hgoes⟩ := (c.context.castType_upcast _ _ _).mp hup
  rw [htable] at hknown hgoes
  have hmarked := (isUpcast_analyze_iff entry visited).mpr
    ⟨href, hknown, hoperand, p.answer, htype, herror, hgoes⟩
  rw [hdown] at hmarked
  cases hmarked

end Casts

/-- Types are noted once and for all: each call answers the type in the final notes, and to type an
expression again changes nothing. The mark of a cast is decided by the final type of its operand. -/
theorem annotations_settled (program : Option Program) (entry : EntryPoint) :
    let a := analyze program entry
    a.table.Chained Notes.empty a.calls a.notes ∧
    (∀ c, a.Makes c → a.table.Reaches c.notes ∧ c.after.Kept a.notes ∧
      (c.expr ≠ .absent → a.typeOf? c.expr = some c.answer)) ∧
    (∀ e, Visited program e ↔ e ≠ .absent ∧ ∃ c, a.Makes c ∧ c.expr = e) ∧
    (∀ n, a.table.Reaches n → ∀ self vars e,
      let first := Context.infer ⟨a.table, self⟩ vars e n
      n.Kept first.value.2 ∧ Context.infer ⟨a.table, self⟩ vars e first.value.2 = first) ∧
    (∀ site target operand, Visited program (.cast site target operand) →
      (a.isUpcast (.cast site target operand) = true ↔
        target.isReference = true ∧ a.table.knows target = true ∧ operand ≠ .absent ∧
          ∃ u, a.typeOf? operand = some u ∧ u.isError = false ∧
            (u.isNull = true ∨ u.isReference = true ∧ a.table.isSubtype u target = true))) ∧
    (a.isAccepted = true →
      (∀ d, some d ∈ (program.map (·.classes)).getD [] → d.name ≠ "<error>") →
      ∀ site target operand, Visited program (.cast site target operand) → operand ≠ .absent →
        a.isUpcast (.cast site target operand) = false →
        ∃ u, a.typeOf? operand = some u ∧ a.table.isSubtype target u = true ∧ target ≠ u) := by
  intro a
  refine ⟨analyze_chained program entry, ?_, ?_, ?_, ?_, ?_⟩
  · intro c hc
    exact ⟨hc.on.reached, hc.on.kept, hc.on.typeOf?⟩
  · intro e
    exact (visited_iff_has entry).trans has_analyze_iff_makes
  · intro n hn self vars e
    exact ⟨hn.kept self vars e, Context.infer_twice hn.coherent e⟩
  · intro site target operand visited
    exact isUpcast_analyze_iff entry visited
  · intro accepted hnames site target operand visited hoperand hdown
    exact cast_down_of_accepted accepted hnames visited hoperand hdown

def narrowing : Expr := .cast ⟨1, 3⟩ (.plain "Main") (.var ⟨2, 3⟩ .absent "o")

def narrowingProgram : Program :=
  ⟨1, [
    some ⟨"Main.btm", 1, "Main", "", [
      some (.method ⟨2, "main", .void, [], []⟩),
      some (.method ⟨3, "run", .void, [⟨3, "o", .plain "Object"⟩],
        [.decl 3 "m" (.plain "Main") narrowing]⟩)]⟩,
    some ⟨"Other.btm", 1, "Other", "", [
      some (.method ⟨3, "run", .void, [⟨3, "o", .plain "Main"⟩],
        [.decl 3 "m" (.plain "Main") narrowing]⟩)]⟩]⟩

theorem narrowing_goes_down :
    let a := analyze (some narrowingProgram) (.ofNames "" "")
    a.isAccepted = true ∧ a.isUpcast narrowing = false ∧
      ∃ u, a.typeOf? (.var ⟨2, 3⟩ .absent "o") = some u ∧
        a.table.isSubtype (.plain "Main") u = true ∧ .plain "Main" ≠ u := by
  intro a
  have hvisited : Visited (some narrowingProgram) narrowing :=
    ⟨_, ⟨[], _, rfl, by simp⟩, by decide, by decide +kernel⟩
  have accepted : a.isAccepted = true := by decide +kernel
  have hdown : a.isUpcast narrowing = false := by decide +kernel
  obtain ⟨-, -, -, -, -, hcasts⟩ := annotations_settled (some narrowingProgram) (.ofNames "" "")
  refine ⟨accepted, hdown, hcasts accepted ?_ _ _ _ hvisited (by simp) hdown⟩
  intro d hd
  simp only [narrowingProgram, Option.map_some, Option.getD_some, List.mem_cons,
    Option.some.injEq, List.not_mem_nil, or_false] at hd
  rcases hd with rfl | rfl <;> decide

/-- A class with the name of the error type: its objects are taken for mistakes, and casts of them
are not looked into. -/
def errorClassProgram : Program :=
  ⟨1, [
    some ⟨"E.btm", 1, "<error>", "", []⟩,
    some ⟨"Main.btm", 1, "Main", "", [
      some (.method ⟨2, "main", .void, [], [
        .decl 3 "v" (.plain "<error>") .absent,
        .decl 4 "o" (.plain "Object")
          (.cast ⟨1, 4⟩ (.plain "Object") (.var ⟨2, 4⟩ .absent "v"))]⟩)]⟩]⟩

theorem error_class_cast_not_down :
    let a := analyze (some errorClassProgram) (.ofNames "" "")
    a.isAccepted = true ∧ ∃ site target operand,
      Visited (some errorClassProgram) (.cast site target operand) ∧ operand ≠ .absent ∧
        a.isUpcast (.cast site target operand) = false ∧
        ¬ ∃ u, a.typeOf? operand = some u ∧ a.table.isSubtype target u = true ∧ target ≠ u := by
  intro a
  have hvisited : Visited (some errorClassProgram)
      (.cast ⟨1, 4⟩ (.plain "Object") (.var ⟨2, 4⟩ .absent "v")) :=
    ⟨_, ⟨[some ⟨"E.btm", 1, "<error>", "", []⟩], [], rfl, by simp⟩, by decide, by decide +kernel⟩
  have htype : a.typeOf? (.var ⟨2, 4⟩ .absent "v") = some .error := by decide +kernel
  have hsubtype : a.table.isSubtype (.plain "Object") .error = false := by decide +kernel
  refine ⟨by decide +kernel, _, _, _, hvisited, by simp, by decide +kernel, ?_⟩
  rintro ⟨u, hu, hup, -⟩
  rw [htype, Option.some.injEq] at hu
  rw [← hu, hsubtype] at hup
  cases hup

end ClassCheck
