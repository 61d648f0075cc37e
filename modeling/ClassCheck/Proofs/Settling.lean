import ClassCheck.Proofs.Confinement
import ClassCheck.Proofs.Coverage
import Mathlib.Data.List.Forall2

/-!
# Types settle

The first type of an expression stays, and whatever is derived from it stays with it: marks of casts
agree with the types of their operands at all times, and to type an expression again changes nothing
and reports the same.
-/

namespace ClassCheck

namespace Notes

def Kept (n k : Notes) : Prop := ∀ e t, n.typeOf? e = some t → k.typeOf? e = some t

theorem Kept.refl (n : Notes) : n.Kept n := fun _ _ h => h

theorem Kept.trans {n k m : Notes} (h : n.Kept k) (h' : k.Kept m) : n.Kept m :=
  fun e t he => h' e t (h e t he)

theorem Kept.has {n k : Notes} (h : n.Kept k) {e : Expr} (he : n.Has e) : k.Has e := by
  obtain ⟨t, ht⟩ := Option.isSome_iff_exists.mp he
  exact Option.isSome_iff_exists.mpr ⟨t, h e t ht⟩

theorem Kept.typeOf?_eq {n k : Notes} (h : n.Kept k) {e : Expr} (he : n.Has e) :
    n.typeOf? e = k.typeOf? e := by
  obtain ⟨t, ht⟩ := Option.isSome_iff_exists.mp he
  rw [ht, h e t ht]

theorem typeOf?_conclude (n : Notes) (e : Expr) (o : Context.CastOutcome) (x : Expr) :
    (n.conclude e o).2.typeOf? x =
      if x = e then some (n.conclude e o).1 else n.typeOf? x := by
  have hentry := congrArg Prod.fst (n.entry_conclude e o x)
  rw [settled_conclude]
  split_ifs at hentry ⊢ <;> exact hentry

theorem isUpcast_conclude (n : Notes) (e : Expr) (o : Context.CastOutcome) (x : Expr) :
    (n.conclude e o).2.isUpcast x =
      if x = e then o.upcast.getD (n.isUpcast e) else n.isUpcast x := by
  have hentry := congrArg Prod.snd (n.entry_conclude e o x)
  split_ifs at hentry ⊢ <;> exact hentry

theorem kept_conclude (n : Notes) (e : Expr) (o : Context.CastOutcome) :
    n.Kept (n.conclude e o).2 := by
  intro x t hx
  rw [typeOf?_conclude]
  split_ifs with hxe
  · rw [settled_conclude, settled, ← hxe, hx, Option.getD_some]
  · exact hx

def Answers (n : Notes) (e : Expr) (t : Ty) : Prop :=
  n.typeOf? e = some t ∨ e = .absent ∧ t = .error

theorem Answers.kept {n k : Notes} {e : Expr} {t : Ty} (h : n.Answers e t) (kept : n.Kept k) :
    k.Answers e t :=
  h.imp_left (kept e t)

theorem Answers.typeOf? {n : Notes} {e : Expr} {t : Ty} (h : n.Answers e t) (he : e ≠ .absent) :
    n.typeOf? e = some t :=
  h.resolve_right fun habsent => he habsent.1

theorem Answers.has {n : Notes} {e : Expr} {t : Ty} (h : n.Answers e t) (he : e ≠ .absent) :
    n.Has e :=
  Option.isSome_iff_exists.mpr ⟨t, h.typeOf? he⟩

theorem has_of_answers {n : Notes} {es : List Expr} {found : List (Judged Ty)}
    (h : List.Forall₂ (fun e j => n.Answers e j.value) es found) {e : Expr} (he : e ∈ es)
    (hne : e ≠ .absent) : n.Has e := by
  induction h with
  | nil => cases he
  | cons hfirst _ ih =>
    rcases List.mem_cons.mp he with rfl | he
    · exact hfirst.has hne
    · exact ih he

theorem markCast_eq_self {n : Notes} {e : Expr} {up : Bool} (h : n.isUpcast e = up) :
    n.markCast e up = n := by
  cases up with
  | true =>
    have hmem : e ∈ n.upcasts := by simpa [isUpcast] using h
    simp [markCast, List.insert_of_mem hmem]
  | false =>
    have hmem : e ∉ n.upcasts := by simpa [isUpcast] using h
    have hfilter : n.upcasts.filter (· != e) = n.upcasts := by
      rw [List.filter_eq_self]
      intro x hx
      exact bne_iff_ne.mpr fun hxe => hmem (hxe ▸ hx)
    simp [markCast, hfilter]

end Notes

/-- What makes a cast go toward an ancestor, by the type that is noted for its operand. -/
def ClassTable.GoesUp (t : ClassTable) (n : Notes) : Expr → Prop
  | .cast _ target operand =>
      target.isReference = true ∧ t.knows target = true ∧
        ∃ u, n.typeOf? operand = some u ∧ u.isError = false ∧
          (u.isNull = true ∨ u.isReference = true ∧ t.isSubtype u target = true)
  | _ => False

theorem ClassTable.goesUp_iff {t : ClassTable} {n k : Notes} (kept : n.Kept k)
    (hn : n.typeOf? .absent = none) (hk : k.typeOf? .absent = none) {e : Expr}
    (hparts : ∀ p ∈ e.parts, p ≠ .absent → n.Has p) : t.GoesUp n e ↔ t.GoesUp k e := by
  cases e with
  | cast site target operand =>
    have htype : n.typeOf? operand = k.typeOf? operand := by
      by_cases habsent : operand = .absent
      · rw [habsent, hn, hk]
      · exact kept.typeOf?_eq (hparts operand (by simp [Expr.parts]) habsent)
    rw [GoesUp, GoesUp, htype]
  | _ => rfl

theorem Context.castType_upcast (cx : Context) (line : Int) (target u : Ty) :
    (cx.castType line target u).value.upcast = some true ↔
      target.isReference = true ∧ cx.table.knows target = true ∧ u.isError = false ∧
        (u.isNull = true ∨ u.isReference = true ∧ cx.table.isSubtype u target = true) := by
  simp only [castType]
  split_ifs <;> simp_all

/-- The notes of a typing under way: parts are typed before the whole, and the marks of casts agree
with the types of their operands. -/
structure ClassTable.Coherent (t : ClassTable) (n : Notes) : Prop where
  absent : n.typeOf? .absent = none
  parts : ∀ e, n.Has e → ∀ p ∈ e.parts, p ≠ .absent → n.Has p
  casts : ∀ e, n.isUpcast e = true ↔ n.Has e ∧ t.GoesUp n e

namespace ClassTable.Coherent

variable {t : ClassTable} {n : Notes}

theorem empty (t : ClassTable) : t.Coherent Notes.empty where
  absent := rfl
  parts := fun e he => by cases he
  casts := fun e => by simp [Notes.empty, Notes.isUpcast, Notes.Has, Notes.typeOf?]

theorem conclude (hn : t.Coherent n) {e : Expr} (he : e ≠ .absent)
    (hparts : ∀ p ∈ e.parts, p ≠ .absent → n.Has p) {o : Context.CastOutcome}
    (hmark : o.upcast = some true ↔ t.GoesUp n e) : t.Coherent (n.conclude e o).2 := by
  have kept := n.kept_conclude e o
  -- Only `e` is new; what was typed before has typed parts, so no earlier cast changes direction.
  have hhas : ∀ x, (n.conclude e o).2.Has x ↔ x = e ∨ n.Has x :=
    fun x => (n.has_conclude e o x).trans or_comm
  have habsent : (n.conclude e o).2.typeOf? .absent = none := by
    rw [Notes.typeOf?_conclude, if_neg he.symm, hn.absent]
  refine ⟨habsent, ?_, ?_⟩
  · intro x hx p hp hpa
    rcases (hhas x).mp hx with rfl | hx
    · exact kept.has (hparts p hp hpa)
    · exact kept.has (hn.parts x hx p hp hpa)
  · intro x
    rw [hhas, Notes.isUpcast_conclude]
    by_cases hx : x = e
    · subst hx
      rw [if_pos rfl, ← goesUp_iff kept hn.absent habsent hparts, ← hmark]
      cases ho : o.upcast with
      | none =>
        -- a cast that is refused keeps its old mark, which the types never allowed to be set
        have hdown : ¬ t.GoesUp n x := fun h => by simp [ho] at hmark; exact hmark h
        simp [hn.casts, hdown]
      | some up => simp
    · rw [if_neg hx, hn.casts]
      constructor
      · intro h
        exact ⟨Or.inr h.1, (goesUp_iff kept hn.absent habsent (hn.parts x h.1)).mp h.2⟩
      · intro h
        have hxn := h.1.resolve_left hx
        exact ⟨hxn, (goesUp_iff kept hn.absent habsent (hn.parts x hxn)).mpr h.2⟩

end ClassTable.Coherent

namespace Context

variable {cx : Context} {vars : Vars} {n : Notes}

theorem judgement_upcast {storage : Bool} {e : Expr} {found : List (Judged Ty)}
    (hn : n.typeOf? .absent = none)
    (hfound : List.Forall₂ (fun p j => n.Answers p j.value) e.parts found) :
    (cx.judgement vars storage e found).value.upcast = some true ↔ cx.table.GoesUp n e := by
  cases e with
  | cast site target operand =>
    obtain ⟨j, js, hj, -, rfl⟩ := List.forall₂_cons_left_iff.mp hfound
    refine (cx.castType_upcast site.line target j.value).trans ?_
    rcases hj with hj | ⟨rfl, hj⟩
    · simp [ClassTable.GoesUp, hj]
    · have herror : j.value.isError = true := by rw [hj]; rfl
      simp [ClassTable.GoesUp, hn, herror]
  | _ => simp [judgement, ClassTable.GoesUp]

structure Settles (cx : Context) (vars : Vars) (n : Notes) (e : Expr) : Prop where
  coherent : cx.table.Coherent (cx.infer vars e n).value.2
  kept : n.Kept (cx.infer vars e n).value.2
  answers : (cx.infer vars e n).value.2.Answers e (cx.infer vars e n).value.1

theorem settles_findings {es : List Expr}
    (h : ∀ e ∈ es, ∀ n, cx.table.Coherent n → cx.Settles vars n e)
    (hn : cx.table.Coherent n) :
    cx.table.Coherent (cx.findings vars es n).2 ∧ n.Kept (cx.findings vars es n).2 ∧
      List.Forall₂ (fun e j => (cx.findings vars es n).2.Answers e j.value) es
        (cx.findings vars es n).1 := by
  induction es generalizing n with
  | nil => exact ⟨hn, .refl n, .nil⟩
  | cons e es ih =>
    have hfirst := h e List.mem_cons_self n hn
    obtain ⟨hcoherent, hkept, hanswers⟩ :=
      ih (fun x hx => h x (List.mem_cons_of_mem e hx)) hfirst.coherent
    exact ⟨hcoherent, hfirst.kept.trans hkept, .cons (hfirst.answers.kept hkept) hanswers⟩

theorem settles (vars : Vars) (hn : cx.table.Coherent n) (e : Expr) : cx.Settles vars n e := by
  induction e using Expr.parts_induction generalizing n with
  | step e ih =>
    by_cases he : e = .absent
    · subst he
      have hinfer : cx.infer vars .absent n = pure (.error, n) := by
        rw [infer]
        rfl
      constructor
      · rw [hinfer]
        exact hn
      · rw [hinfer]
        exact .refl n
      · rw [hinfer]
        exact Or.inr ⟨rfl, rfl⟩
    · obtain ⟨hcoherent, hkept, hanswers⟩ := settles_findings ih hn
      constructor
      · rw [infer_eq he]
        exact hcoherent.conclude he (fun p => Notes.has_of_answers hanswers)
          (judgement_upcast hcoherent.absent hanswers)
      · rw [infer_eq he]
        exact hkept.trans (Notes.kept_conclude _ _ _)
      · rw [infer_eq he]
        refine Or.inl ?_
        rw [Notes.typeOf?_conclude, if_pos rfl]

theorem findings_settle (vars : Vars) (es : List Expr) (hn : cx.table.Coherent n) :
    cx.table.Coherent (cx.findings vars es n).2 ∧ n.Kept (cx.findings vars es n).2 ∧
      List.Forall₂ (fun e j => (cx.findings vars es n).2.Answers e j.value) es
        (cx.findings vars es n).1 :=
  settles_findings (fun e _ _ hm => settles vars hm e) hn

theorem has_findings {es : List Expr} {x : Expr} (hx : x ∈ es.flatMap Expr.visits) :
    (cx.findings vars es n).2.Has x :=
  (Covers.findings (fun e _ => Covers.infer cx vars e) n x).mpr (Or.inr hx)

section Again

variable {k : Notes} (hk : cx.table.Coherent k)

/-- Typed again with notes that keep what the first time left, an expression gets the same type and
the same reports, and nothing is noted. -/
def Repeats (cx : Context) (vars : Vars) (k : Notes) (e : Expr) : Prop :=
  ∀ n, cx.table.Coherent n → (cx.infer vars e n).value.2.Kept k →
    cx.infer vars e k = ⟨((cx.infer vars e n).value.1, k), (cx.infer vars e n).reports⟩

theorem findings_again {es : List Expr} (h : ∀ e ∈ es, cx.Repeats vars k e)
    (hn : cx.table.Coherent n) (kept : (cx.findings vars es n).2.Kept k) :
    cx.findings vars es k = ((cx.findings vars es n).1, k) := by
  induction es generalizing n with
  | nil => rfl
  | cons e es ih =>
    have hcoherent := (settles vars hn e).coherent
    obtain ⟨-, hkept, -⟩ := findings_settle vars es hcoherent
    have hfirst := h e List.mem_cons_self n hn (hkept.trans kept)
    have hrest := ih (fun x hx => h x (List.mem_cons_of_mem e hx)) hcoherent kept
    simp only [findings, hfirst, hrest]

include hk in
theorem conclude_again {e : Expr} {o : CastOutcome} (hn : n.typeOf? .absent = none)
    (hparts : ∀ p ∈ e.parts, p ≠ .absent → n.Has p)
    (hmark : o.upcast = some true ↔ cx.table.GoesUp n e) (kept : (n.conclude e o).2.Kept k) :
    k.conclude e o = ((n.conclude e o).1, k) := by
  have htype : k.typeOf? e = some (n.conclude e o).1 :=
    kept e _ (by rw [Notes.typeOf?_conclude, if_pos rfl])
  have hgoes := ClassTable.goesUp_iff (t := cx.table) ((n.kept_conclude e o).trans kept) hn
    hk.absent hparts
  have hkept : k.mark e o.upcast = k := by
    cases ho : o.upcast with
    | none => rfl
    | some up =>
      apply Notes.markCast_eq_self
      rw [Bool.eq_iff_iff, hk.casts, ← hgoes, ← hmark, ho, Option.some.injEq]
      exact and_iff_right (Option.isSome_iff_exists.mpr ⟨_, htype⟩)
  rw [Notes.conclude, hkept, Notes.settled, Notes.record, htype]
  rfl

include hk in
theorem infer_again (e : Expr) : cx.Repeats vars k e := by
  induction e using Expr.parts_induction with
  | step e ih =>
    intro n hn kept
    by_cases he : e = .absent
    · rw [he, infer]
      rfl
    · obtain ⟨hcoherent, -, hanswers⟩ := findings_settle vars e.parts hn
      rw [infer_eq he] at kept
      have hfound := findings_again ih hn ((Notes.kept_conclude _ _ _).trans kept)
      -- updates look into the notes on their own, but only at what the parts have settled
      have hstores : k.stores e = (cx.findings vars e.parts n).2.stores e := by
        apply Notes.stores_congr
        intro x hx
        have hkept := (Notes.kept_conclude _ _ _).trans kept
        exact (hkept.typeOf?_eq (has_findings hx)).symm
      have hconclude := conclude_again hk hcoherent.absent
        (fun p => Notes.has_of_answers hanswers) (judgement_upcast hcoherent.absent hanswers) kept
      simp only [infer_eq he, hfound, hstores, hconclude]

end Again

/-- Typing an expression a second time gives and reports the same as the first time, and leaves the
notes as they are. -/
theorem infer_twice (hn : cx.table.Coherent n) (e : Expr) :
    cx.infer vars e (cx.infer vars e n).value.2 = cx.infer vars e n :=
  infer_again (settles vars hn e).coherent e n hn (.refl _)

end Context

end ClassCheck
