import ClassCheck.Proofs.Annotations
import ClassCheck.Proofs.Declarations

/-!
# Class types and special types

Types are told apart by their names alone. A class has a class type unless it has the name of a
special type, which nothing in the analysis forbids; and the object itself has the type of the class
that it is mentioned in, or of the class above.
-/

namespace ClassCheck

def Notes.Each (Q : Expr → Ty → Prop) (n : Notes) : Prop := ∀ e t, n.typeOf? e = some t → Q e t

theorem Notes.Each.conclude {Q : Expr → Ty → Prop} {n : Notes} (hn : n.Each Q) {e : Expr}
    {o : Context.CastOutcome} (ho : Q e o.type) : (n.conclude e o).2.Each Q := by
  intro x t hx
  rw [Notes.typeOf?_conclude] at hx
  split_ifs at hx with hxe
  · rw [Notes.settled_conclude, Option.some.injEq, Notes.settled] at hx
    rw [hxe, ← hx]
    cases hold : n.typeOf? e with
    | none => exact ho
    | some old => exact hn e old hold
  · exact hn x t hx

namespace Context

theorem judgement_this (cx : Context) (vars : Vars) (storage : Bool) (site : Site)
    (found : List (Judged Ty)) :
    (cx.judgement vars storage (.var site .absent "this") found).value.type = cx.self.type := rfl

theorem judgement_super (cx : Context) (vars : Vars) (storage : Bool) (site : Site)
    (found : List (Judged Ty)) :
    (cx.judgement vars storage (.var site .absent "super") found).value.type =
      (cx.parent?.map (·.type)).getD .error := rfl

variable {cx : Context} {vars : Vars} {Q : Expr → Ty → Prop}

theorem each_findings {es : List Expr}
    (h : ∀ e ∈ es, ∀ n : Notes, n.Each Q → (cx.infer vars e n).value.2.Each Q) {n : Notes}
    (hn : n.Each Q) : (cx.findings vars es n).2.Each Q := by
  induction es generalizing n with
  | nil => exact hn
  | cons e es ih =>
    have hfirst := h e List.mem_cons_self n hn
    exact ih (fun p hp => h p (List.mem_cons_of_mem e hp)) hfirst

theorem each_infer {e : Expr}
    (hQ : ∀ x ∈ e.visits, ∀ storage found, Q x (cx.judgement vars storage x found).value.type)
    {n : Notes} (hn : n.Each Q) : (cx.infer vars e n).value.2.Each Q := by
  induction e using Expr.parts_induction generalizing n with
  | step e ih =>
    by_cases he : e = .absent
    · rw [he, Context.infer]
      exact hn
    rw [Expr.visits_eq_parts he] at hQ
    have hparts : (cx.findings vars e.parts n).2.Each Q := by
      refine each_findings (fun p hp m hm => ih p hp (fun x hx => ?_) hm) hn
      exact hQ x (List.mem_cons_of_mem e (List.mem_flatMap.mpr ⟨p, hp, hx⟩))
    rw [infer_eq he]
    exact hparts.conclude (hQ e List.mem_cons_self _ _)

end Context

theorem ClassTable.Chained.each {Q : Expr → Ty → Prop} {t : ClassTable} {n k : Notes}
    {cs : List Call} (h : t.Chained n cs k) (hn : n.Each Q)
    (hQ : ∀ c ∈ cs, ∀ x ∈ c.expr.visits, ∀ storage found,
      Q x (c.context.judgement c.vars storage x found).value.type) : k.Each Q := by
  induction cs generalizing n with
  | nil =>
    cases h
    exact hn
  | cons c cs ih =>
    obtain ⟨-, rfl, hrest⟩ := h
    refine ih hrest ?_ fun d hd => hQ d (List.mem_cons_of_mem c hd)
    exact Context.each_infer (hQ c List.mem_cons_self) hn

section Self

variable {program : Option Program} {entry : EntryPoint}

theorem typeOf?_analyze_name {name : String} {type : ClassInfo → Ty}
    (htype : ∀ c vars storage site found,
      (Context.judgement ⟨(analyze program entry).table, c⟩ vars storage (.var site .absent name)
        found).value.type = type c) {site : Site}
    (has : (analyze program entry).notes.Has (.var site .absent name)) :
    ∃ c ∈ (analyze program entry).order, c.isBuiltIn = false ∧
      .var site .absent name ∈ c.decl.visits ∧
      (analyze program entry).typeOf? (.var site .absent name) = some (type c) := by
  obtain ⟨t, ht⟩ := Option.isSome_iff_exists.mp has
  -- the node may stand in several classes, so the invariant is only that some class gave the type
  have heach := (analyze_chained program entry).each
    (Q := fun e t => e = .var site .absent name →
      ∃ c ∈ (analyze program entry).order, c.isBuiltIn = false ∧ e ∈ c.decl.visits ∧ t = type c)
    (fun e t h => by cases h) ?_
  · obtain ⟨c, hc, huser, hin, rfl⟩ := heach _ t ht rfl
    exact ⟨c, hc, huser, hin, ht⟩
  · rintro call hcall x hx storage found rfl
    obtain ⟨k, hk, hinside⟩ := Call.Inside.calls hcall
    obtain ⟨horder, huser⟩ := List.mem_filter.mp hk
    refine ⟨k, horder, by simpa using huser, hinside.expr hx, ?_⟩
    rw [hinside.context]
    exact htype k _ _ _ _

end Self

section Classes

variable {program : Option Program} {entry : EntryPoint} {c : ClassInfo}

theorem find?_analyze_order (hc : c ∈ (analyze program entry).order) :
    (analyze program entry).table.find? c.name = some c := by
  obtain ⟨n, hn, rfl⟩ := mem_analyze_order.mp hc
  have hfind := (Hierarchy.ofProgram_linked program).find?_eq_some_iff.mpr ⟨hn, rfl⟩
  rw [table_analyze, ClassTable.find?_ofHierarchy]
  exact congrArg (Option.map _) hfind

theorem parent?_analyze_order
    (links : (Hierarchy.ofRegistry (Registry.ofProgram program).value).reports = [])
    (hc : c ∈ (analyze program entry).order) (huser : c.isBuiltIn = false) :
    ∃ q ∈ (analyze program entry).order, (analyze program entry).table.parent? c = some q := by
  obtain ⟨n, hn, rfl⟩ := mem_analyze_order.mp hc
  rcases List.mem_cons.mp hn with rfl | ho
  · cases huser
  have hlinked : (Hierarchy.ofProgram program).parent? n ≠ none := by
    rw [Ne, (Hierarchy.ofProgram_linked program).parent?_eq_none_iff hn]
    exact Hierarchy.ofRegistry_parent links ho
  obtain ⟨q, hq⟩ := Option.ne_none_iff_exists'.mp hlinked
  refine ⟨_, mem_analyze_order.mpr ⟨q, Hierarchy.parent?_mem hq, rfl⟩, ?_⟩
  rw [table_analyze, ClassTable.parent?_ofHierarchy, hq]
  rfl

theorem not_special_of_declared
    (hnames : ∀ d, some d ∈ (program.map (·.classes)).getD [] → Ty.isSpecialName d.name = false)
    (hc : c ∈ (analyze program entry).order) : Ty.isSpecialName c.name = false := by
  obtain ⟨n, hn, rfl⟩ := mem_analyze_order.mp hc
  rcases Registry.mem_ofProgram (Hierarchy.ofRegistry_mem_registered hn) with hb | ⟨-, hd⟩
  · have hbuiltIn : ∀ b ∈ Registry.builtIn.classes, Ty.isSpecialName b.name = false := by decide
    exact hbuiltIn _ hb
  · exact hnames _ hd

end Classes

section Accepted

variable {p : Program} {entry : EntryPoint} (quiet : Quiet (some p) entry) {site : Site}
include quiet

theorem Quiet.typeOf?_this (hin : .var site .absent "this" ∈ p.exprs) :
    ∃ c ∈ (analyze (some p) entry).order, c.isBuiltIn = false ∧
      .var site .absent "this" ∈ c.decl.visits ∧
      (analyze (some p) entry).typeOf? (.var site .absent "this") = some c.type :=
  typeOf?_analyze_name (fun c => Context.judgement_this ⟨_, c⟩) (quiet_has_visited quiet hin)

theorem Quiet.typeOf?_super (hin : .var site .absent "super" ∈ p.exprs) :
    ∃ c ∈ (analyze (some p) entry).order, c.isBuiltIn = false ∧
      .var site .absent "super" ∈ c.decl.visits ∧
      ∃ q ∈ (analyze (some p) entry).order, (analyze (some p) entry).table.parent? c = some q ∧
        (analyze (some p) entry).typeOf? (.var site .absent "super") = some q.type := by
  obtain ⟨c, hc, huser, hvisits, htype⟩ :=
    typeOf?_analyze_name (fun c => Context.judgement_super ⟨_, c⟩) (quiet_has_visited quiet hin)
  obtain ⟨q, hq, hparent⟩ := parent?_analyze_order quiet.links hc huser
  rw [Context.parent?, hparent] at htype
  exact ⟨c, hc, huser, hvisits, q, hq, hparent, htype⟩

end Accepted

theorem Ty.isSpecialName_iff {name : String} :
    isSpecialName name = true ↔ plain name ∈ [int, boolean, void, null, error] := by
  simp [isSpecialName, isPrimitiveName, plain, int, boolean, void, null, error, or_assoc]

theorem Registered.isClass_type (c : Registered) : c.type.isClass = !Ty.isSpecialName c.name := rfl

/-- Exactly the classes with the name of a special type have that type and no class type; every
other class is found through its type. In an accepted program `this` has the type of a class that
it stands in, and `super` that of the class above, so both have class types if no class has such a
name. -/
theorem class_types_told_apart {program : Option Program} {entry : EntryPoint}
    (accepted : (analyze program entry).isAccepted = true) :
    let a := analyze program entry
    (∀ c ∈ a.order, (c.type.isClass = true ↔ Ty.isSpecialName c.name = false) ∧
      (c.type ∈ [.int, .boolean, .void, .null, .error] ↔ Ty.isSpecialName c.name = true) ∧
      a.table.named? c.type = if Ty.isSpecialName c.name then none else some c) ∧
    (∀ p ∈ program, ∀ site,
      (.var site .absent "this" ∈ p.exprs → ∃ c ∈ a.order, c.isBuiltIn = false ∧
        .var site .absent "this" ∈ c.decl.visits ∧
        a.typeOf? (.var site .absent "this") = some c.type) ∧
      (.var site .absent "super" ∈ p.exprs → ∃ c ∈ a.order, c.isBuiltIn = false ∧
        .var site .absent "super" ∈ c.decl.visits ∧ ∃ q ∈ a.order, a.table.parent? c = some q ∧
        a.typeOf? (.var site .absent "super") = some q.type)) ∧
    ((∀ d, some d ∈ (program.map (·.classes)).getD [] → Ty.isSpecialName d.name = false) →
      ∀ p ∈ program, ∀ site, ∀ name ∈ ["this", "super"], .var site .absent name ∈ p.exprs →
        ∃ t, a.typeOf? (.var site .absent name) = some t ∧ t.isClass = true) := by
  intro a
  have quiet := isAccepted_iff.mp accepted
  refine ⟨?_, ?_, ?_⟩
  · intro c hc
    have hfind : a.table.find? c.type.name = some c := find?_analyze_order hc
    refine ⟨?_, Ty.isSpecialName_iff.symm, ?_⟩
    · rw [Registered.isClass_type, Bool.not_eq_true']
    · rw [ClassTable.named?, Registered.isClass_type, hfind]
      cases Ty.isSpecialName c.name <;> rfl
  · rintro p rfl site
    exact ⟨quiet.typeOf?_this, quiet.typeOf?_super⟩
  · rintro hnames p rfl site name hname hin
    have hclass : ∀ c ∈ a.order, c.type.isClass = true := by
      intro c hc
      rw [Registered.isClass_type, not_special_of_declared hnames hc]
      rfl
    rcases List.mem_pair.mp hname with rfl | rfl
    · obtain ⟨c, hc, -, -, htype⟩ := quiet.typeOf?_this hin
      exact ⟨c.type, htype, hclass c hc⟩
    · obtain ⟨-, -, -, -, q, hq, -, htype⟩ := quiet.typeOf?_super hin
      exact ⟨q.type, htype, hclass q hq⟩

def selvesProgram : Program :=
  ⟨1, [
    some ⟨"Base.btm", 1, "Base", "", []⟩,
    some ⟨"Main.btm", 1, "Main", "Base", [
      some (.method ⟨2, "main", .void, [], [
        .decl 3 "b" (.plain "Base") (.var ⟨1, 3⟩ .absent "super"),
        .decl 4 "m" (.plain "Main") (.var ⟨2, 4⟩ .absent "this")]⟩)]⟩]⟩

theorem selvesProgram_told_apart :
    let a := analyze (some selvesProgram) (.ofNames "" "")
    a.isAccepted = true ∧
      (∃ c ∈ a.order, a.typeOf? (.var ⟨2, 4⟩ .absent "this") = some c.type) ∧
      ∃ t, a.typeOf? (.var ⟨1, 3⟩ .absent "super") = some t ∧ t.isClass = true := by
  intro a
  have accepted : a.isAccepted = true := by decide +kernel
  obtain ⟨-, hselves, hclass⟩ := class_types_told_apart accepted
  have hnames : ∀ d, some d ∈ selvesProgram.classes → Ty.isSpecialName d.name = false := by
    intro d hd
    simp only [selvesProgram, List.mem_cons, Option.some.injEq, List.not_mem_nil, or_false] at hd
    rcases hd with rfl | rfl <;> decide
  refine ⟨accepted, ?_, hclass hnames _ rfl ⟨1, 3⟩ "super" (by simp) (by decide +kernel)⟩
  obtain ⟨c, hc, -, -, htype⟩ := (hselves _ rfl ⟨2, 4⟩).1 (by decide +kernel)
  exact ⟨c, hc, htype⟩

def namesakeProgram (name : String) (members : List (Option Member)) : Program :=
  ⟨1, [
    some ⟨"Namesake.btm", 1, name, "", members⟩,
    some ⟨"Main.btm", 1, "Main", "", [some (.method ⟨2, "main", .void, [], []⟩)]⟩]⟩

/-- Classes with the names of special types are accepted, and the objects of such a class have the
special type. -/
theorem special_names_accepted :
    (∀ name ∈ ["int", "boolean", "void", "null", "<error>"],
      let a := analyze (some (namesakeProgram name [])) (.ofNames "" "")
      a.isAccepted = true ∧ ∃ c ∈ a.order, c.type.isClass = false) ∧
    let returned := some (.method ⟨2, "me", .int, [], [.ret 3 (.var ⟨1, 3⟩ .absent "this")]⟩)
    let a := analyze (some (namesakeProgram "int" [returned])) (.ofNames "" "")
    a.isAccepted = true ∧ a.typeOf? (.var ⟨1, 3⟩ .absent "this") = some .int ∧
      ∃ c ∈ a.order, c.type = .int ∧ c.type.isClass = false ∧
        (a.table.named? c.type).isNone = true := by
  decide +kernel

end ClassCheck
