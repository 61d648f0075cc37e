import ClassCheck.Proofs.ReportSites
import ClassCheck.Proofs.Settling

/-!
# One mistake, one report

An operand that failed has the error type, and no rule objects to that type. So an expression with
such an operand reports, besides what was reported about the operand itself, at most what it would
report with any other operand in the same place.
-/

namespace ClassCheck

/-! ### Expressions typed alongside do not matter -/

namespace Expr

theorem sizeOf_lt_of_mem_parts {p e : Expr} (h : p ∈ e.parts) : sizeOf p < sizeOf e := by
  cases e with
  | absent | int | bool | str | newObject => cases h
  | var | newArray | instanceOf | cast | assign | unary =>
    rw [List.mem_singleton.mp h]
    simp only [var.sizeOf_spec, newArray.sizeOf_spec, instanceOf.sizeOf_spec, cast.sizeOf_spec,
      assign.sizeOf_spec, unary.sizeOf_spec]
    omega
  | element | assignElement | binary =>
    simp only [element.sizeOf_spec, assignElement.sizeOf_spec, binary.sizeOf_spec]
    rcases List.mem_pair.mp h with rfl | rfl <;> omega
  | dispatch site receiver method args =>
    rw [dispatch.sizeOf_spec]
    rcases List.mem_cons.mp h with rfl | h
    · omega
    · have hsize := List.sizeOf_lt_of_mem h
      omega

theorem sizeOf_le_of_mem_visits {x e : Expr} (h : x ∈ e.visits) : sizeOf x ≤ sizeOf e := by
  induction e using parts_induction with
  | step e ih =>
    by_cases he : e = .absent
    · rw [he, visits_absent] at h
      cases h
    · rw [visits_eq_parts he] at h
      rcases List.mem_cons.mp h with rfl | h
      · exact Nat.le_refl _
      · obtain ⟨p, hp, hx⟩ := List.mem_flatMap.mp h
        have hpart := ih p hp hx
        have hsize := sizeOf_lt_of_mem_parts hp
        omega

theorem not_mem_visits_parts (e : Expr) : e ∉ e.parts.flatMap visits := by
  intro h
  obtain ⟨p, hp, he⟩ := List.mem_flatMap.mp h
  have hle := sizeOf_le_of_mem_visits he
  have hlt := sizeOf_lt_of_mem_parts hp
  omega

end Expr

namespace Context

variable {cx : Context} {vars : Vars} {n m : Notes}

theorem typeOf?_findings_parts (e : Expr) (n : Notes) :
    (cx.findings vars e.parts n).2.typeOf? e = n.typeOf? e := by
  have hconfined := Confined.findings fun p (_ : p ∈ e.parts) => Confined.infer cx vars p
  exact congrArg Prod.fst (hconfined.frame n e e.not_mem_visits_parts)

/-- The notes `m` hold the types of `n`, and besides only types that are given from `n` on. -/
def Foresees (cx : Context) (vars : Vars) (n m : Notes) : Prop :=
  ∀ x, m.typeOf? x = n.typeOf? x ∨
    n.typeOf? x = none ∧ m.typeOf? x = some (cx.infer vars x n).value.1

theorem Foresees.refl (cx : Context) (vars : Vars) (n : Notes) : cx.Foresees vars n n :=
  fun _ => .inl rfl

theorem infer_of_noted {e : Expr} (he : e ≠ .absent) {t : Ty} (ht : n.typeOf? e = some t) :
    (cx.infer vars e n).value.1 = t := by
  rw [infer_eq he, Notes.settled_conclude, Notes.settled, typeOf?_findings_parts, ht,
    Option.getD_some]

theorem Foresees.typeOf?_eq {k : Notes} (hm : cx.Foresees vars n m) (hk : cx.Foresees vars n k)
    {x : Expr} (hmx : m.Has x) (hkx : k.Has x) : m.typeOf? x = k.typeOf? x := by
  rw [Notes.Has] at hmx hkx
  rcases hm x with hm | ⟨hnone, hm⟩ <;> rcases hk x with hk | ⟨hnone', hk⟩
  · rw [hm, hk]
  · rw [hm, hnone'] at hmx
    cases hmx
  · rw [hk, hnone] at hkx
    cases hkx
  · rw [hm, hk]

theorem Foresees.conclude (hm : cx.Foresees vars n m) {e : Expr} (he : e ≠ .absent)
    {o : CastOutcome} (ho : (m.conclude e o).1 = (cx.infer vars e n).value.1) :
    cx.Foresees vars n (m.conclude e o).2 := by
  intro x
  rw [Notes.typeOf?_conclude, ho]
  split_ifs with hx
  · rw [hx]
    cases hnote : n.typeOf? e with
    | none => exact .inr ⟨rfl, rfl⟩
    | some t => exact .inl (congrArg some (infer_of_noted he hnote))
  · exact hm x

/-- What is found about `e` from `n` on. -/
def foreseen (cx : Context) (vars : Vars) (n : Notes) (e : Expr) : Judged Ty :=
  ⟨(cx.infer vars e n).value.1, (cx.infer vars e n).reports⟩

theorem findings_foreseen {es : List Expr}
    (h : ∀ e ∈ es, ∀ m, cx.Foresees vars n m →
      cx.foreseen vars m e = cx.foreseen vars n e ∧
        cx.Foresees vars n (cx.infer vars e m).value.2)
    (hm : cx.Foresees vars n m) :
    (cx.findings vars es m).1 = es.map (cx.foreseen vars n) ∧
      cx.Foresees vars n (cx.findings vars es m).2 := by
  induction es generalizing m with
  | nil => exact ⟨rfl, hm⟩
  | cons e es ih =>
    obtain ⟨hfirst, hafter⟩ := h e List.mem_cons_self m hm
    obtain ⟨hrest, hend⟩ := ih (fun x hx => h x (List.mem_cons_of_mem e hx)) hafter
    refine ⟨?_, hend⟩
    rw [findings, List.map_cons, ← hfirst, ← hrest]
    rfl

/-- Typing gives and reports the same, whatever else has been typed in the meantime. -/
theorem infer_foreseen (e : Expr) : ∀ m, cx.Foresees vars n m →
    cx.foreseen vars m e = cx.foreseen vars n e ∧
      cx.Foresees vars n (cx.infer vars e m).value.2 := by
  induction e using Expr.parts_induction with
  | step e ih =>
    intro m hm
    by_cases he : e = .absent
    · subst he
      rw [foreseen, foreseen, infer]
      exact ⟨rfl, hm⟩
    obtain ⟨hfound, hafter⟩ := findings_foreseen ih hm
    obtain ⟨hfound', hafter'⟩ := findings_foreseen ih (Foresees.refl cx vars n)
    have hstores : (cx.findings vars e.parts m).2.stores e =
        (cx.findings vars e.parts n).2.stores e := by
      apply Notes.stores_congr
      intro x hx
      exact hafter.typeOf?_eq hafter' (has_findings hx) (has_findings hx)
    generalize hj : cx.judgement vars ((cx.findings vars e.parts n).2.stores e) e
      (e.parts.map (cx.foreseen vars n)) = j
    have hrun : cx.infer vars e m =
        ⟨(cx.findings vars e.parts m).2.conclude e j.value, j.reports⟩ := by
      rw [infer_eq he, hfound, hstores, hj]
    have hrun' : cx.infer vars e n =
        ⟨(cx.findings vars e.parts n).2.conclude e j.value, j.reports⟩ := by
      rw [infer_eq he, hfound', hj]
    have hsame : ((cx.findings vars e.parts m).2.conclude e j.value).1 =
        (cx.infer vars e n).value.1 := by
      rw [Notes.settled_conclude, Notes.settled]
      rcases hafter e with hkept | ⟨-, hearlier⟩
      · rw [hkept, hrun', Notes.settled_conclude, Notes.settled, typeOf?_findings_parts]
      · rw [hearlier, Option.getD_some]
    rw [foreseen, foreseen, hrun, hsame]
    refine ⟨?_, hafter.conclude he hsame⟩
    rw [hrun']

end Context

/-! ### The error type is met in silence -/

def Located.mark (r : Located TypingProblem) : Diagnostic.Kind × Int := (r.problem.kind, r.line)

/-- Going by kind and line, `rs` are among the reports `qs`, in the same order. -/
def Located.Among (rs qs : List (Located TypingProblem)) : Prop :=
  (rs.map Located.mark).Sublist (qs.map Located.mark)

namespace Located.Among

variable {rs rs' qs qs' : List (Located TypingProblem)}

theorem refl (rs : List (Located TypingProblem)) : Among rs rs := List.Sublist.refl _

theorem nil (qs : List (Located TypingProblem)) : Among [] qs := List.nil_sublist _

theorem append (h : Among rs qs) (h' : Among rs' qs') : Among (rs ++ rs') (qs ++ qs') := by
  rw [Among, List.map_append, List.map_append]
  exact List.Sublist.append h h'

theorem append_left (h : Among rs qs) (qs' : List (Located TypingProblem)) :
    Among rs (qs' ++ qs) :=
  (nil qs').append h

end Located.Among

open Located (Among)

namespace Context

theorem among_require {cx : Context} {line : Int} {ok ok' : Bool} {problem problem' : TypingProblem}
    (hok : ok = true → ok' = true) (hkind : problem'.kind = problem.kind) :
    Among (cx.require ok' line problem').reports (cx.require ok line problem).reports := by
  cases ok' with
  | true => exact .nil _
  | false =>
    cases ok with
    | true => cases hok rfl
    | false => simp [Among, reports_require, Located.mark, hkind]

theorem reports_ite_refuse (cx : Context) (ok : Bool) (t : Ty) (line : Int)
    (problem : TypingProblem) :
    (if ok then pure t else cx.refuse line problem : Judged Ty).reports =
      (cx.require ok line problem).reports := by
  cases ok <;> rfl

variable (cx : Context) (vars : Vars) (line : Int) {u : Ty} (hu : u.isError = true)
include hu

theorem varType_error {receiver : Expr} (hreceiver : receiver.isAbsent = false) (name : String) :
    (cx.varType vars line receiver u name).reports = [] := by
  rw [varType, hreceiver, memberType, hu]
  rfl

theorem indexedType_error {receiver : Expr} (hreceiver : receiver.isAbsent = false)
    (name : String) : cx.indexedType vars line receiver u name = pure .error := by
  rw [indexedType, hreceiver, hu]
  rfl

omit hu in
theorem elementType_error (name : String) : cx.elementType line name .error = pure .error := rfl

theorem receiverClass_error {receiver : Expr} (hreceiver : receiver.isAbsent = false)
    (method : String) : cx.receiverClass line receiver u method = pure none := by
  rw [receiverClass, hreceiver, hu]
  rfl

theorem indexed_error (index : Expr) : (cx.indexed index u).reports = [] := by
  rw [indexed, (Ty.fits_of_isError hu).1]
  rfl

theorem assigned_error (target : Ty) (value : Expr) (name : String) :
    (cx.assigned target value u name).reports = [] := by
  rw [assigned, (Ty.fits_of_isError hu).2.2.1, cx.table.accepts_of_isError target hu]
  rfl

theorem argument_error (method : String) (position : Nat) (arg : Expr) (param : Ty) :
    (cx.argument method position arg u param).reports = [] := by
  rw [argument, (Ty.fits_of_isError hu).2.2.1, hu]
  rfl

theorem arguments_error (method : String) (position : Nat) (before after : List (Expr × Ty))
    (a b : Expr) (t : Ty) (params : List Ty) :
    Among (cx.arguments method position (before ++ (b, u) :: after) params).reports
      (cx.arguments method position (before ++ (a, t) :: after) params).reports := by
  induction before generalizing position params with
  | nil =>
    cases params with
    | nil => exact .refl _
    | cons param params =>
      simp only [List.nil_append, arguments, Reported.reports_bind, cx.argument_error hu]
      exact (Among.nil _).append (.refl _)
  | cons x before ih =>
    cases params with
    | nil => exact .refl _
    | cons param params =>
      simp only [List.cons_append, arguments, Reported.reports_bind]
      exact (Among.refl _).append ((ih (position + 1) params).append (.refl _))

theorem callType_error (receiver : Option ClassInfo) (method : String)
    (before after : List (Expr × Ty)) (a b : Expr) (t : Ty) :
    Among (cx.callType line receiver method (before ++ (b, u) :: after)).reports
      (cx.callType line receiver method (before ++ (a, t) :: after)).reports := by
  cases receiver with
  | none => exact .refl _
  | some owner =>
    have hlength : (before ++ (b, u) :: after).length = (before ++ (a, t) :: after).length := by
      simp
    simp only [callType, hlength]
    split
    · exact .refl _
    · split_ifs
      · exact .refl _
      · exact (cx.arguments_error hu method 1 before after a b t _).append (.refl _)

theorem arrayType_error (elemName : String) (a b : Expr) (t : Ty) :
    Among (cx.arrayType line elemName b u).reports (cx.arrayType line elemName a t).reports := by
  simp only [arrayType, Reported.reports_bind, (Ty.fits_of_isError hu).1]
  exact (Among.refl _).append ((Among.nil _).append (.refl _))

theorem instanceOfType_error (target : Ty) (a b : Expr) (t : Ty) :
    Among (cx.instanceOfType line target b u).reports
      (cx.instanceOfType line target a t).reports := by
  obtain ⟨-, -, hvoid, hprimitive⟩ := Ty.fits_of_isError hu
  simp only [instanceOfType, Reported.reports_bind, hvoid, hprimitive]
  exact (Among.refl _).append ((Among.nil _).append (.refl _))

theorem castType_error (target t : Ty) :
    Among (cx.castType line target u).reports (cx.castType line target t).reports := by
  simp only [castType, hu]
  by_cases htarget : target.isReference = true
  · by_cases hknown : cx.table.knows target = true
    · simp only [htarget, hknown]
      exact .nil _
    · simp only [htarget, hknown]
      exact .refl _
  · simp only [htarget]
    exact .refl _

theorem binaryType_error (op : BinaryOp) (t other : Ty) :
    Among (cx.binaryType line op u other).reports (cx.binaryType line op t other).reports ∧
      Among (cx.binaryType line op other u).reports (cx.binaryType line op other t).reports := by
  obtain ⟨hint, hboolean, -⟩ := Ty.fits_of_isError hu
  rw [binaryType, binaryType, binaryType, binaryType]
  cases op.family <;>
    simp only [reports_ite_refuse, Reported.reports_bind, Reported.reports_pure, List.append_nil]
  case arithmetic | relational =>
    exact ⟨among_require (by simp +contextual [hint]) rfl,
      among_require (by simp +contextual [hint]) rfl⟩
  case equality =>
    exact ⟨among_require (by simp [ClassTable.comparable, hu]) rfl,
      among_require (by simp [ClassTable.comparable, hu]) rfl⟩
  case logical =>
    exact ⟨among_require (by simp +contextual [hboolean]) rfl,
      among_require (by simp +contextual [hboolean]) rfl⟩
  case none => exact ⟨.refl _, .refl _⟩

theorem unaryType_error {op : UnaryOp} (hop : op.updates = false) (storage storage' : Bool)
    (t : Ty) : Among (cx.unaryType line op storage' u).reports
      (cx.unaryType line op storage t).reports := by
  obtain ⟨hint, hboolean, -⟩ := Ty.fits_of_isError hu
  cases op with
  | incr | decr => cases hop
  | neg =>
    simp only [unaryType, hint]
    exact .nil _
  | not =>
    simp only [unaryType, hboolean]
    exact .nil _
  | unknown => exact .refl _

end Context

/-! ### Operands in place of others -/

namespace Expr

/-- The expression with other parts, as many as it has. -/
def withParts : Expr → List Expr → Expr
  | var site _ name, [receiver] => var site receiver name
  | element site _ name _, [receiver, index] => element site receiver name index
  | dispatch site _ method _, receiver :: args => dispatch site receiver method args
  | newArray site elemName _, [size] => newArray site elemName size
  | instanceOf site _ target, [operand] => instanceOf site operand target
  | cast site target _, [operand] => cast site target operand
  | assign site qualifier name _, [value] => assign site qualifier name value
  | assignElement site qualifier name _ _, [index, value] =>
      assignElement site qualifier name index value
  | binary site op _ _, [left, right] => binary site op left right
  | unary site op trailing _, [operand] => unary site op trailing operand
  | e, _ => e

def isUpdate : Expr → Bool
  | unary _ op _ _ => op.updates
  | _ => false

def hasReceiver : Expr → Bool
  | var .. | element .. | dispatch .. => true
  | _ => false

theorem parts_withParts {e : Expr} {ps : List Expr} (h : ps.length = e.parts.length) :
    (e.withParts ps).parts = ps := by
  cases e with
  | absent | int | bool | str | newObject => exact (List.length_eq_zero_iff.mp h).symm
  | var | newArray | instanceOf | cast | assign | unary =>
    obtain ⟨x, rfl⟩ := List.length_eq_one_iff.mp h
    rfl
  | element | assignElement | binary =>
    obtain ⟨x, y, rfl⟩ := List.length_eq_two.mp h
    rfl
  | dispatch =>
    obtain ⟨x, rest, rfl⟩ := List.exists_cons_of_length_eq_add_one h
    rfl

end Expr

theorem eq_of_pair_eq_append_cons {α : Type} {x y a : α} {before after : List α}
    (h : [x, y] = before ++ a :: after) :
    before = [] ∧ x = a ∧ after = [y] ∨ before = [x] ∧ y = a ∧ after = [] := by
  obtain ⟨rfl, ⟨⟩⟩ | ⟨rest, rfl, hrest⟩ := List.cons_eq_append_iff.mp h
  · exact .inl ⟨rfl, rfl, rfl⟩
  · obtain ⟨rfl, ⟨⟩⟩ | ⟨-, ⟨⟩⟩ := List.singleton_eq_append_iff.mp hrest
    exact .inr ⟨rfl, rfl, rfl⟩

namespace Context

variable {cx : Context} {vars : Vars}

theorem judgement_error {e a b : Expr} {before after : List Expr} {found found' : List (Judged Ty)}
    (ja jb : Judged Ty) (hparts : e.parts = before ++ a :: after)
    (hfound : found.length = before.length) (hfound' : found'.length = after.length)
    (hupdate : e.isUpdate = false) (hreceiver : e.hasReceiver = true → before = [] → b ≠ .absent)
    (herror : jb.value.isError = true) (storage storage' : Bool) :
    ∃ first last last',
      (cx.judgement vars storage e (found ++ ja :: found')).reports =
        first ++ ja.reports ++ last ∧
      (cx.judgement vars storage' (e.withParts (before ++ b :: after))
        (found ++ jb :: found')).reports = first ++ jb.reports ++ last' ∧
      Among last' last := by
  cases e with
  | absent | int | bool | str | newObject => simp [Expr.parts] at hparts
  | var site receiver name =>
    obtain ⟨rfl, ⟨⟩⟩ | ⟨-, ⟨⟩⟩ := List.singleton_eq_append_iff.mp hparts
    obtain rfl := List.length_eq_zero_iff.mp hfound
    have hb := Expr.isAbsent_eq_false (hreceiver rfl rfl)
    have hvar := cx.varType_error vars site.line herror hb
    exact ⟨[], _, [], by simp [judgement, finding]; rfl,
      by simp [judgement, finding, Expr.withParts, hvar], .nil _⟩
  | newArray site elemName size =>
    obtain ⟨rfl, ⟨⟩⟩ | ⟨-, ⟨⟩⟩ := List.singleton_eq_append_iff.mp hparts
    obtain rfl := List.length_eq_zero_iff.mp hfound
    exact ⟨[], _, _, by simp [judgement, finding], by simp [judgement, finding, Expr.withParts],
      cx.arrayType_error site.line herror elemName a b ja.value⟩
  | instanceOf site operand target =>
    obtain ⟨rfl, ⟨⟩⟩ | ⟨-, ⟨⟩⟩ := List.singleton_eq_append_iff.mp hparts
    obtain rfl := List.length_eq_zero_iff.mp hfound
    exact ⟨[], _, _, by simp [judgement, finding], by simp [judgement, finding, Expr.withParts],
      cx.instanceOfType_error site.line herror target a b ja.value⟩
  | cast site target operand =>
    obtain ⟨rfl, ⟨⟩⟩ | ⟨-, ⟨⟩⟩ := List.singleton_eq_append_iff.mp hparts
    obtain rfl := List.length_eq_zero_iff.mp hfound
    exact ⟨[], _, _, by simp [judgement, finding], by simp [judgement, finding, Expr.withParts],
      cx.castType_error site.line herror target ja.value⟩
  | unary site op trailing operand =>
    obtain ⟨rfl, ⟨⟩⟩ | ⟨-, ⟨⟩⟩ := List.singleton_eq_append_iff.mp hparts
    obtain rfl := List.length_eq_zero_iff.mp hfound
    exact ⟨[], _, _, by simp [judgement, finding], by simp [judgement, finding, Expr.withParts],
      cx.unaryType_error site.line herror hupdate storage storage' ja.value⟩
  | assign site qualifier name value =>
    obtain ⟨rfl, ⟨⟩⟩ | ⟨-, ⟨⟩⟩ := List.singleton_eq_append_iff.mp hparts
    obtain rfl := List.length_eq_zero_iff.mp hfound
    exact ⟨(cx.targetType vars site.line qualifier name).reports, _, [],
      by simp [judgement, finding]; rfl,
      by simp [judgement, finding, Expr.withParts, cx.assigned_error herror], .nil _⟩
  | binary site op left right =>
    rcases eq_of_pair_eq_append_cons hparts with ⟨rfl, rfl, rfl⟩ | ⟨rfl, rfl, rfl⟩
    · obtain rfl := List.length_eq_zero_iff.mp hfound
      obtain ⟨jr, rfl⟩ := List.length_eq_one_iff.mp hfound'
      have hleft := (cx.binaryType_error site.line herror op ja.value jr.value).1
      exact ⟨[], _, _, by simp [judgement, finding], by simp [judgement, finding, Expr.withParts],
        (Among.refl jr.reports).append hleft⟩
    · obtain ⟨jl, rfl⟩ := List.length_eq_one_iff.mp hfound
      exact ⟨jl.reports, _, _, by simp [judgement, finding],
        by simp [judgement, finding, Expr.withParts],
        (cx.binaryType_error site.line herror op ja.value jl.value).2⟩
  | element site receiver name index =>
    rcases eq_of_pair_eq_append_cons hparts with ⟨rfl, rfl, rfl⟩ | ⟨rfl, rfl, rfl⟩
    · obtain rfl := List.length_eq_zero_iff.mp hfound
      obtain ⟨ji, rfl⟩ := List.length_eq_one_iff.mp hfound'
      have hb := Expr.isAbsent_eq_false (hreceiver rfl rfl)
      have hrest := (Among.refl (ji.reports ++ (cx.indexed index ji.value).reports)).append
        (.nil (cx.elementType site.line name
          (cx.indexedType vars site.line receiver ja.value name).value).reports)
      exact ⟨[], _, _, by simp [judgement, finding],
        by simp [judgement, finding, Expr.withParts, cx.indexedType_error vars site.line herror hb,
          elementType_error],
        hrest.append_left (cx.indexedType vars site.line receiver ja.value name).reports⟩
    · obtain ⟨jr, rfl⟩ := List.length_eq_one_iff.mp hfound
      set base := cx.indexedType vars site.line receiver jr.value name with hbase
      exact ⟨jr.reports ++ base.reports, _, _, by simp [judgement, finding, hbase],
        by simp [judgement, finding, Expr.withParts, cx.indexed_error herror, hbase],
        (Among.refl (cx.elementType site.line name base.value).reports).append_left
          (cx.indexed index ja.value).reports⟩
  | assignElement site qualifier name index value =>
    set target := cx.targetType vars site.line qualifier name with htarget
    set elem := cx.targetElement site.line name target.value with helem
    rcases eq_of_pair_eq_append_cons hparts with ⟨rfl, rfl, rfl⟩ | ⟨rfl, rfl, rfl⟩
    · obtain rfl := List.length_eq_zero_iff.mp hfound
      obtain ⟨jv, rfl⟩ := List.length_eq_one_iff.mp hfound'
      exact ⟨target.reports, _, _, by simp [judgement, finding, htarget, helem],
        by simp [judgement, finding, Expr.withParts, cx.indexed_error herror, htarget, helem],
        (Among.refl (elem.reports ++ (jv.reports ++
          (cx.assigned elem.value value jv.value name).reports))).append_left
            (cx.indexed index ja.value).reports⟩
    · obtain ⟨ji, rfl⟩ := List.length_eq_one_iff.mp hfound
      exact ⟨target.reports ++ ji.reports ++ (cx.indexed index ji.value).reports ++ elem.reports, _,
        [], by simp [judgement, finding, htarget, helem]; rfl,
        by simp [judgement, finding, Expr.withParts, cx.assigned_error herror, htarget, helem],
        .nil _⟩
  | dispatch site receiver method args =>
    cases before with
    | nil =>
      obtain ⟨rfl, rfl⟩ := List.cons.inj hparts
      obtain rfl := List.length_eq_zero_iff.mp hfound
      have hb := Expr.isAbsent_eq_false (hreceiver rfl rfl)
      set owner := cx.receiverClass site.line receiver ja.value method with howner
      have hrest := (Among.refl (found'.flatMap Reported.reports)).append
        (.nil (cx.callType site.line owner.value method
          (args.zip (found'.map Reported.value))).reports)
      exact ⟨[], _, _, by simp [judgement, finding, Reported.forEach, howner],
        by simp [judgement, finding, Reported.forEach, Expr.withParts, callType,
          cx.receiverClass_error site.line herror hb],
        hrest.append_left owner.reports⟩
    | cons x before =>
      obtain ⟨rfl, rfl⟩ := List.cons.inj hparts
      obtain ⟨jr, found, rfl⟩ := List.exists_cons_of_length_eq_add_one hfound
      have hlength : before.length = (found.map Reported.value).length := by
        simpa using hfound.symm
      set owner := cx.receiverClass site.line receiver jr.value method with howner
      have hcall := cx.callType_error site.line herror owner.value method
        (before.zip (found.map Reported.value)) (after.zip (found'.map Reported.value)) a b ja.value
      exact ⟨jr.reports ++ owner.reports ++ found.flatMap Reported.reports, _, _,
        by simp [judgement, finding, Reported.forEach, howner, List.zip_append hlength],
        by simp [judgement, finding, Reported.forEach, Expr.withParts, howner,
          List.zip_append hlength],
        (Among.refl (found'.flatMap Reported.reports)).append hcall⟩

theorem findings_append (es fs : List Expr) (n : Notes) :
    cx.findings vars (es ++ fs) n =
      let first := cx.findings vars es n
      let rest := cx.findings vars fs first.2
      (first.1 ++ rest.1, rest.2) := by
  induction es generalizing n with
  | nil => rfl
  | cons e es ih => simp only [List.cons_append, findings, ih]

theorem findings_around (before after : List Expr) (x : Expr) (n : Notes) :
    let m := (cx.findings vars before n).2
    (cx.findings vars (before ++ x :: after) n).1 =
      (cx.findings vars before n).1 ++ cx.foreseen vars m x :: after.map (cx.foreseen vars m) := by
  intro m
  have hafter := (infer_foreseen x m (.refl cx vars m)).2
  have hrest := (findings_foreseen (fun e (_ : e ∈ after) => infer_foreseen e) hafter).1
  rw [findings_append, ← hrest]
  rfl

end Context

/-- If an operand failed, then besides what was reported about it at most that is reported, going by
kind and line, which would be reported with another operand in its place. -/
theorem error_operand_reports_no_more (cx : Context) (vars : Vars) (n : Notes) {e a b : Expr}
    {before after : List Expr} (hparts : e.parts = before ++ a :: after)
    (hupdate : e.isUpdate = false) (hreceiver : e.hasReceiver = true → before = [] → b ≠ .absent)
    (herror : (cx.infer vars b (cx.findings vars before n).2).value.1.isError = true) :
    let m := (cx.findings vars before n).2
    let replaced := e.withParts (before ++ b :: after)
    replaced.parts = before ++ b :: after ∧
    ∃ first last last',
      (cx.infer vars e n).reports = first ++ (cx.infer vars a m).reports ++ last ∧
      (cx.infer vars replaced n).reports = first ++ (cx.infer vars b m).reports ++ last' ∧
      ((first ++ last').map Located.mark).Sublist ((first ++ last).map Located.mark) := by
  intro m replaced
  have hreplaced : replaced.parts = before ++ b :: after :=
    Expr.parts_withParts (by rw [hparts]; simp)
  have hjudged : ∀ x y, x.parts = before ++ y :: after → ∃ storage,
      (cx.infer vars x n).reports = (cx.judgement vars storage x ((cx.findings vars before n).1 ++
        cx.foreseen vars m y :: after.map (cx.foreseen vars m))).reports := by
    intro x y hx
    have hpresent : x ≠ .absent := by
      rintro rfl
      simp [Expr.parts] at hx
    refine ⟨(cx.findings vars x.parts n).2.stores x, ?_⟩
    rw [← Context.findings_around, ← hx, Context.infer_eq hpresent]
  obtain ⟨storage, hreports⟩ := hjudged e a hparts
  obtain ⟨storage', hreports'⟩ := hjudged replaced b hreplaced
  obtain ⟨first, last, last', hfirst, hfirst', hamong⟩ :=
    Context.judgement_error (cx.foreseen vars m a) (cx.foreseen vars m b) hparts
      (cx.length_findings vars before n) (List.length_map (cx.foreseen vars m)) hupdate hreceiver
      herror storage storage'
  rw [hreports, hreports']
  exact ⟨hreplaced, first, last, last', hfirst, hfirst', (Among.refl first).append hamong⟩

theorem sum_with_undeclared :
    let table := (analyze none (.ofNames "" "")).table
    let cx : Context := ⟨table, table.root⟩
    let one : Expr := .int ⟨1, 1⟩ 1
    let sum (x : Expr) : Expr := .binary ⟨2, 1⟩ .add one x
    let m := (cx.infer [] one Notes.empty).value.2
    (cx.infer [] (.var ⟨3, 1⟩ .absent "x") m).value.1.isError = true ∧
    ∃ first last last',
      (cx.infer [] (sum (.bool ⟨4, 1⟩ true)) Notes.empty).reports =
        first ++ (cx.infer [] (.bool ⟨4, 1⟩ true) m).reports ++ last ∧
      (cx.infer [] (sum (.var ⟨3, 1⟩ .absent "x")) Notes.empty).reports =
        first ++ (cx.infer [] (.var ⟨3, 1⟩ .absent "x") m).reports ++ last' ∧
      ((first ++ last').map Located.mark).Sublist ((first ++ last).map Located.mark) := by
  intro table cx one sum m
  have herror : (cx.infer [] (.var ⟨3, 1⟩ .absent "x") m).value.1.isError = true := by
    decide +kernel
  have hparts : (sum (.bool ⟨4, 1⟩ true)).parts = [one] ++ .bool ⟨4, 1⟩ true :: [] := rfl
  obtain ⟨-, hreports⟩ :=
    error_operand_reports_no_more cx [] Notes.empty hparts rfl (by simp) herror
  exact ⟨herror, hreports⟩

end ClassCheck
