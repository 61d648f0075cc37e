import ClassCheck.Proofs.HierarchyShape
import ClassCheck.Proofs.OwnMembers
import ClassCheck.Proofs.VisibleMembers

/-! Overriding keeps signatures. A method is entered into a table only if it repeats the signature
that its class would inherit, so going down the chain of tables a name never changes its
signature. -/

namespace ClassCheck

namespace Signature

theorem agrees_iff {s t : Signature} : s.agrees t = true ↔ s.type = t.type := by
  simp only [agrees, type, MethodType.mk.injEq, Bool.and_eq_true, beq_iff_eq]
  exact and_comm

theorem agrees_refl (s : Signature) : s.agrees s = true := agrees_iff.mpr rfl

theorem agrees_trans {s t u : Signature} (hst : s.agrees t = true) (htu : t.agrees u = true) :
    s.agrees u = true :=
  agrees_iff.mpr ((agrees_iff.mp hst).trans (agrees_iff.mp htu))

end Signature

namespace Members

def inherits? (above : List Members) (x : String) : Option Signature :=
  ScopeStack.lookup (above.map (·.signatures)) x

/-- The methods of a table have their own names, and repeat what they override. -/
structure Upholds (m : Members) (above : List Members) : Prop where
  named : ∀ x s, m.signatures.find? x = some s → s.name = x
  agrees : ∀ x s t, m.signatures.find? x = some s → inherits? above x = some t →
    s.agrees t = true

theorem inherits?_cons (m : Members) (above : List Members) (x : String) :
    inherits? (m :: above) x = (m.signatures.find? x).or (inherits? above x) := by
  rw [inherits?, List.map_cons, ScopeStack.lookup, List.findSome?_cons]
  cases m.signatures.find? x <;> rfl

variable {h : Hierarchy} {c : ClassNode} {above : List Members} {m m' : Members}

theorem Upholds.empty (above : List Members) : Members.empty.Upholds above where
  named := by
    intro x s hs
    cases hs
  agrees := by
    intro x s t hs
    cases hs

theorem Upholds.inherits? (up : m.Upholds above) {x : String} {t : Signature}
    (ht : inherits? above x = some t) :
    ∃ s, Members.inherits? (m :: above) x = some s ∧ s.agrees t = true := by
  rw [inherits?_cons]
  cases hs : m.signatures.find? x with
  | none => exact ⟨t, ht, t.agrees_refl⟩
  | some s => exact ⟨s, rfl, up.agrees x s t hs ht⟩

theorem declareMethod_overload {d : Method} {x n : String} {t : Signature} {k : Mismatch}
    (hd : m.declareMethod h c above d = .error (.overload x n t k)) :
    n = c.name ∧ Members.inherits? above x = some t := by
  rw [declareMethod_eq] at hd
  split_ifs at hd <;> try cases hd
  split at hd
  · cases hd
  · rename_i inherited hsome
    split at hd
    · cases hd
      exact ⟨rfl, hsome⟩
    · cases hd

theorem Upholds.addMethod (up : m.Upholds above) {s : Signature}
    (hs : ∀ t, Members.inherits? above s.name = some t → s.agrees t = true) :
    (m.addMethod s).Upholds above where
  named := by
    intro x u hu
    rw [Members.addMethod, ScopeStack.find?_add] at hu
    split at hu
    · cases hu
      exact Eq.symm ‹_›
    · exact up.named x u hu
  agrees := by
    intro x u t hu ht
    rw [Members.addMethod, ScopeStack.find?_add] at hu
    split at hu
    · rename_i hx
      cases hu
      exact hs t (hx ▸ ht)
    · exact up.agrees x u t hu ht

theorem ofClass_upholds (h : Hierarchy) (c : ClassNode) (above : List Members) :
    (ofClass h c above).value.Upholds above := by
  refine declareAll_induction (P := (Upholds · above)) (Upholds.empty above)
    (fun m f _ up _ => ⟨up.named, up.agrees⟩) ?_
  intro m d _ up hd
  refine up.addMethod fun t ht => ?_
  have hmatch := (declareMethod_eq_ok_iff.mp hd).2.2.2.1 t ht
  exact Signature.agrees_iff.mpr (Signature.mismatch?_eq_none_iff.mp hmatch).symm

theorem declare_overload {member : Member} {r : Located MemberProblem}
    (hr : r ∈ (m.declare h c above member).reports) {x n : String} {t : Signature} {k : Mismatch}
    (hp : r.problem = .overload x n t k) :
    r.file = c.decl.file ∧ n = c.name ∧ Members.inherits? above x = some t := by
  cases member with
  | field f =>
    rw [Members.declare, declareField_eq] at hr
    split_ifs at hr <;> simp [Reported.attempt] at hr <;> simp [hr] at hp
  | method d =>
    rw [Members.declare] at hr
    cases hd : m.declareMethod h c above d with
    | ok m' => simp [hd, Reported.attempt] at hr
    | error problem =>
      simp only [hd, Reported.attempt, Reported.reports_bind, Reported.reports_report,
        Reported.reports_pure, List.append_nil, List.mem_singleton] at hr
      have hproblem : problem = .overload x n t k := by rw [← hp, hr]
      exact ⟨by rw [hr], declareMethod_overload (hproblem ▸ hd)⟩

theorem declareAll_overload {members : List (Option Member)} {r : Located MemberProblem}
    (hr : r ∈ (m.declareAll h c above members).reports) {x n : String} {t : Signature}
    {k : Mismatch} (hp : r.problem = .overload x n t k) :
    r.file = c.decl.file ∧ n = c.name ∧ Members.inherits? above x = some t := by
  induction members generalizing m with
  | nil => cases hr
  | cons o members ih =>
    cases o with
    | none => exact ih hr
    | some member =>
      rw [Members.declareAll, Reported.reports_bind, List.mem_append] at hr
      rcases hr with hr | hr
      · exact declare_overload hr hp
      · exact ih hr

end Members

namespace Hierarchy

variable {h : Hierarchy}

theorem method?_classInfo (h : Hierarchy) (c : ClassNode) (x : String) :
    (h.classInfo c).method? x = Members.inherits? (h.memberChain c) x := rfl

theorem memberChain_upholds (h : Hierarchy) (c : ClassNode) :
    (h.members c).value.Upholds (h.inherited c) :=
  Members.ofClass_upholds h c _

theorem membersAlong_named {cs : List ClassNode} {x : String} {s : Signature}
    (hs : Members.inherits? (h.membersAlong cs) x = some s) : s.name = x := by
  induction cs with
  | nil => cases hs
  | cons c cs ih =>
    rw [membersAlong, Members.inherits?_cons] at hs
    cases hown : (Members.ofClass h c (h.membersAlong cs)).value.signatures.find? x with
    | none =>
      rw [hown, Option.none_or] at hs
      exact ih hs
    | some t =>
      rw [hown, Option.some_or, Option.some.injEq] at hs
      exact hs ▸ (Members.ofClass_upholds h c _).named x t hown

theorem method?_named {c : ClassNode} {x : String} {s : Signature}
    (hs : (h.classInfo c).method? x = some s) : s.name = x := by
  change Members.inherits? (h.membersAlong (c :: h.sources c)) x = some s at hs
  exact membersAlong_named hs

theorem canReturn_root (h : Hierarchy) : Members.canReturn h (.plain BuiltIn.rootName) = true := by
  have hknows : h.knows (.plain BuiltIn.rootName) = true := by
    rw [knows, Ty.isKnown, Bool.or_eq_true, List.contains_iff_mem]
    exact Or.inr List.mem_cons_self
  rw [Members.canReturn, hknows, Bool.or_true]

theorem method?_clone_root (h : Hierarchy) :
    (h.classInfo root).method? "clone" =
      some ⟨"clone", .plain BuiltIn.rootName, [], BuiltIn.rootName, 0⟩ := by
  have hdeclared : Members.empty.declareMethod h root []
      ⟨0, "clone", .plain BuiltIn.rootName, [], [.ret 0 .absent]⟩ =
        .ok (Members.empty.addMethod
          ⟨"clone", .plain BuiltIn.rootName, [], BuiltIn.rootName, 0⟩) := by
    rw [Members.declareMethod_eq, h.canReturn_root]
    rfl
  have hmembers : h.members root = Members.empty.declare h root []
      (.method ⟨0, "clone", .plain BuiltIn.rootName, [], [.ret 0 .absent]⟩) := by
    rw [members, inherited_root]
    exact bind_pure _
  rw [method?_classInfo, memberChain, Members.inherits?_cons, hmembers, Members.declare, hdeclared]
  rfl

namespace Linked

variable (linked : h.Linked)
include linked

theorem inherited_tableParent {c p : ClassNode} (hc : c ∈ h.classes)
    (hp : h.tableParent? c = some p) : h.inherited c = h.memberChain p := by
  rw [linked.inherited_eq hc, hp]
  rfl

theorem method?_tableParent {c p : ClassNode} (hc : c ∈ h.classes)
    (hp : h.tableParent? c = some p) {x : String} {t : Signature}
    (ht : (h.classInfo p).method? x = some t) :
    ∃ s, (h.classInfo c).method? x = some s ∧ s.agrees t = true := by
  rw [method?_classInfo, ← linked.inherited_tableParent hc hp] at ht
  exact (h.memberChain_upholds c).inherits? ht

theorem method?_sources {c d : ClassNode} (hc : c ∈ h.classes) (hd : d ∈ c :: h.sources c)
    {x : String} {t : Signature} (ht : (h.classInfo d).method? x = some t) :
    ∃ s, (h.classInfo c).method? x = some s ∧ s.agrees t = true := by
  revert hd
  refine linked.source_induction (fun c hc ih hd => ?_) hc
  rcases List.mem_cons.mp hd with rfl | hd
  · exact ⟨t, ht, t.agrees_refl⟩
  rw [linked.sources_eq hc] at hd
  cases hp : h.tableParent? c with
  | none => simp [hp] at hd
  | some p =>
    rw [hp, Option.map_some, Option.getD_some] at hd
    obtain ⟨u, hu, hut⟩ := ih p hp hd
    obtain ⟨s, hs, hsu⟩ := linked.method?_tableParent hc hp hu
    exact ⟨s, hs, Signature.agrees_trans hsu hut⟩

theorem mem_sources {c d : ClassNode} (hc : c ∈ h.classes)
    (hd : d ∈ c :: h.ancestors c ∨ d = root) : d ∈ c :: h.sources c := by
  have hclasses : ∀ e ∈ c :: h.ancestors c, e ∈ h.classes := by
    intro e he
    obtain ⟨n, hn⟩ := (linked.mem_upward hc).mp he
    exact follow_mem h.parent?_closed hc hn
  rw [sources]
  rcases hd with hd | rfl
  · split
    · exact hd
    · exact List.mem_append_left [root] hd
  · split
    · rename_i hany
      obtain ⟨e, he, hroot⟩ := List.any_eq_true.mp hany
      exact (linked.isRoot_iff (hclasses e he)).mp hroot ▸ he
    · exact List.mem_append_right (c :: h.ancestors c) (List.mem_singleton_self root)

theorem method?_clone {c : ClassNode} (hc : c ∈ h.classes) :
    ∃ s, (h.classInfo c).method? "clone" = some s ∧ s.text = "Object clone()" ∧
      s.returnType = .plain "Object" ∧ s.params = [] := by
  have hroot := linked.mem_sources hc (d := root) (Or.inr rfl)
  obtain ⟨s, hs, hagrees⟩ := linked.method?_sources hc hroot h.method?_clone_root
  have hname : s.name = "clone" := method?_named hs
  have hreturn : s.returnType = .plain "Object" :=
    congrArg MethodType.result (Signature.agrees_iff.mp hagrees)
  have hparams : s.params = [] := congrArg MethodType.params (Signature.agrees_iff.mp hagrees)
  refine ⟨s, hs, ?_, hreturn, hparams⟩
  rw [Signature.text, hname, hreturn, hparams]
  rfl

end Linked

end Hierarchy

/-- Down every chain of tables a name keeps its signature, on every program: a class agrees with its
ancestors and with the root, also below a refused link and also where it tried to declare the name
otherwise, and every class can be cloned. -/
theorem overriding_keeps_signatures (program : Option Program) (entry : EntryPoint) :
    let h := Hierarchy.ofProgram program
    let a := analyze program entry
    (∀ c ∈ a.order, ∀ d ∈ a.order, d.toClassNode ∈ c.upward ∨ d.isRoot = true →
      ∀ x s, d.method? x = some s → ∃ s', c.method? x = some s' ∧ s'.agrees s = true) ∧
    (∀ r ∈ h.environment.reports, ∀ x n s k, r.problem = .overload x n s k →
      ∃ c ∈ a.order, c.name = n ∧ c.decl.file = r.file ∧
        (∃ d ∈ a.order, c.source = some d.toClassNode ∧ d.method? x = some s) ∧
        ∃ s', c.method? x = some s' ∧ s'.agrees s = true) ∧
    ∀ c ∈ a.order, ∃ s, c.method? "clone" = some s ∧ s.text = "Object clone()" ∧
      s.returnType = .plain "Object" ∧ s.params = [] := by
  intro h a
  have linked : h.Linked := Hierarchy.ofProgram_linked program
  refine ⟨?_, ?_, ?_⟩
  · intro c hc d hd hup x s hs
    obtain ⟨n, hn, rfl⟩ := mem_analyze_order.mp hc
    obtain ⟨o, ho, rfl⟩ := mem_analyze_order.mp hd
    exact linked.method?_sources hn
      (linked.mem_sources hn (hup.imp_right (linked.isRoot_iff ho).mp)) hs
  · intro r hr x n s k hproblem
    rw [linked.environment_reports] at hr
    obtain ⟨o, ho, hr⟩ := List.mem_flatMap.mp hr
    have ho := linked.mem_order.mp ho
    obtain ⟨hfile, hname, hinherited⟩ := Members.declareAll_overload hr hproblem
    refine ⟨h.classInfo o, mem_analyze_order.mpr ⟨o, ho, rfl⟩, hname.symm, hfile.symm, ?_⟩
    change Members.inherits? (h.inherited o) x = some s at hinherited
    cases hp : h.tableParent? o with
    | none =>
      rw [linked.inherited_eq ho, hp] at hinherited
      cases hinherited
    | some p =>
      rw [linked.inherited_tableParent ho hp] at hinherited
      have hpc := Hierarchy.tableParent?_mem hp
      refine ⟨⟨h.classInfo p, mem_analyze_order.mpr ⟨p, hpc, rfl⟩, ?_, hinherited⟩,
        linked.method?_tableParent ho hp hinherited⟩
      rw [linked.tablesFollow.source o ho, hp]
      rfl
  · intro c hc
    obtain ⟨n, hn, rfl⟩ := mem_analyze_order.mp hc
    exact linked.method?_clone hn

end ClassCheck
