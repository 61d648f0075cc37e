import ClassCheck.Proofs.Declarations
import ClassCheck.Proofs.OwnMembers

/-!
# The members that a class sees

Tables chained along links find under a name what `Program.Sees` says, and no member is refused
exactly if every class of the program has its members in order.
-/

namespace ClassCheck

theorem Finds.view_iff {α β γ : Type} {l : List α} {name : α → String} {entry : α → β} {x : String}
    {found : Option β} (finds : Finds l name entry x found) (view : β → γ) (t : γ) :
    (∃ b, found = some b ∧ view b = t) ↔ ∃ a ∈ l, name a = x ∧ view (entry a) = t := by
  constructor
  · intro h
    obtain ⟨b, hb, rfl⟩ := h
    obtain ⟨a, ha, hname, rfl⟩ := (finds b).mp hb
    exact ⟨a, ha, hname, rfl⟩
  · intro h
    obtain ⟨a, ha, hname, rfl⟩ := h
    exact ⟨_, (finds _).mpr ⟨a, ha, hname, rfl⟩, rfl⟩

theorem Hierarchy.inherited_root (h : Hierarchy) : h.inherited Hierarchy.root = [] := by
  rw [Hierarchy.inherited, Hierarchy.sources_root]
  rfl

theorem Registry.builtIn_members : ∀ b ∈ builtIn.classes,
    b.decl.fields = [] ∧ (b.decl.methods.map (·.name)).Nodup ∧
      ∀ m ∈ b.decl.methods, m.name ∉ ["this", "super", "null"] ∧
        (m.returnType = .void ∨ m.returnType.name ∈ "int" :: "boolean" :: builtIn.names) := by
  intro b hb
  simp only [classes, builtIn, List.mem_cons, List.not_mem_nil, or_false] at hb
  rcases hb with rfl | rfl | rfl | rfl
  all_goals exact ⟨rfl, by decide, by decide⟩

def Hierarchy.memberChain (h : Hierarchy) (c : ClassNode) : List Members :=
  (h.members c).value :: h.inherited c

namespace Program

variable {p : Program}

theorem Sees.inv {α : Type} {declares : ClassDecl → String → α → Prop} {n name : String} {a : α}
    (h : p.Sees declares n name a) :
    ∃ d ∈ p.allDecls, d.name = n ∧ (declares d name a ∨
      (∀ b, ¬ declares d name b) ∧ ∃ sup, p.Extends n sup ∧ p.Sees declares sup name a) := by
  cases h with
  | own hd ha => exact ⟨_, hd, rfl, .inl ha⟩
  | above hd hnone hsup h => exact ⟨_, hd, rfl, .inr ⟨hnone, _, hsup, h⟩⟩

theorem Sees.declared {α : Type} {declares : ClassDecl → String → α → Prop} {n name : String}
    {a : α} (h : p.Sees declares n name a) :
    ∃ e ∈ p.allDecls, Relation.ReflTransGen p.Extends n e.name ∧ declares e name a := by
  induction h with
  | own hd ha => exact ⟨_, hd, .refl, ha⟩
  | above hd hnone hsup h ih =>
    obtain ⟨e, he, hup, hdeclares⟩ := ih
    exact ⟨e, he, .head hsup hup, hdeclares⟩

theorem known_of_builtIn {t : Ty} (h : t.name ∈ "int" :: "boolean" :: Registry.builtIn.names) :
    p.Known t := by
  rw [List.mem_cons, List.mem_cons] at h
  refine h.imp_right (Or.imp_right ?_)
  intro hname
  rw [p.classNames_eq]
  exact List.mem_append_left _ hname

theorem inherited_child {c q : ClassNode} (hc : c ∈ p.hierarchy.classes)
    (hq : p.hierarchy.parent? c = some q) :
    p.hierarchy.inherited c = p.hierarchy.memberChain q := by
  rw [Hierarchy.inherited, (Hierarchy.ofProgram_linked (some p)).sources_child hc hq]
  rfl

namespace HierarchyOk

variable (ok : p.HierarchyOk)
include ok

theorem knows_iff {t : Ty} : p.hierarchy.knows t = true ↔ p.Known t := by
  have hnames : t.name ∈ p.hierarchy.classes.map (·.name) ↔
      t.name ∈ p.classNames := by
    rw [ok.mem_classNames, List.mem_map]
  simp only [Hierarchy.knows, Ty.isKnown, Ty.isPrimitiveName, Bool.or_eq_true, beq_iff_eq,
    List.contains_iff_mem, hnames, Known, or_assoc]

theorem canReturn_iff {t : Ty} :
    Members.canReturn p.hierarchy t = true ↔ t = .void ∨ p.Known t := by
  rw [Members.canReturn, Bool.or_eq_true, Ty.isVoid_iff, ok.knows_iff]

section Sees

variable {β : Type} {declares : ClassDecl → String → β → Prop} {name : String} {c : ClassNode}

theorem sees_own_iff (hc : c ∈ p.hierarchy.classes) {b₀ : β} (hown : declares c.decl name b₀)
    (b : β) : p.Sees declares c.name name b ↔ declares c.decl name b := by
  constructor
  · intro h
    obtain ⟨d, hd, hname, h⟩ := h.inv
    cases ok.decl_eq hc hd hname
    rcases h with h | ⟨hnone, -⟩
    · exact h
    · exact absurd hown (hnone b₀)
  · intro h
    exact .own (ok.mem_allDecls.mpr ⟨c, hc, rfl⟩) h

theorem sees_above_iff (hc : c ∈ p.hierarchy.classes) (hnone : ∀ b, ¬ declares c.decl name b)
    (b : β) :
    p.Sees declares c.name name b ↔
      ∃ sup, p.Extends c.name sup ∧ p.Sees declares sup name b := by
  constructor
  · intro h
    obtain ⟨d, hd, hname, h⟩ := h.inv
    cases ok.decl_eq hc hd hname
    rcases h with h | ⟨-, h⟩
    · exact absurd h (hnone b)
    · exact h
  · intro h
    obtain ⟨sup, hsup, h⟩ := h
    exact .above (ok.mem_allDecls.mpr ⟨c, hc, rfl⟩) hnone hsup h

end Sees

/-- If a class finds its own members and the class above finds what it sees, then the class finds
what it sees. -/
theorem lookup_iff_sees {α β : Type} {table : Members → ScopeStack α} {view : α → β}
    {declares : ClassDecl → String → β → Prop} {key name : String} {c : ClassNode}
    (hc : c ∈ p.hierarchy.classes)
    (hown : ∀ b, (∃ a, (table (p.hierarchy.members c).value).find? key = some a ∧
      view a = b) ↔ declares c.decl name b)
    (habove : ∀ q, p.hierarchy.parent? c = some q → ∀ b,
      (∃ a, ScopeStack.lookup ((p.hierarchy.memberChain q).map table) key = some a ∧
        view a = b) ↔ p.Sees declares q.name name b) (b : β) :
    (∃ a, ScopeStack.lookup ((p.hierarchy.memberChain c).map table) key = some a ∧ view a = b) ↔
      p.Sees declares c.name name b := by
  rw [Hierarchy.memberChain, List.map_cons, ScopeStack.lookup, List.findSome?_cons]
  cases hfind : (table (p.hierarchy.members c).value).find? key with
  | some a =>
    rw [ok.sees_own_iff hc ((hown _).mp ⟨a, hfind, rfl⟩), ← hown b, hfind]
  | none =>
    have hnone : ∀ b, ¬ declares c.decl name b := by
      intro b hb
      obtain ⟨a, ha, -⟩ := (hown b).mpr hb
      rw [hfind] at ha
      cases ha
    rw [ok.sees_above_iff hc hnone]
    rcases ok.root_or_parent hc with rfl | ⟨q, hq⟩
    · rw [Hierarchy.inherited_root]
      constructor
      · intro h
        obtain ⟨a, ha, -⟩ := h
        cases ha
      · intro h
        obtain ⟨sup, hsup, -⟩ := h
        exact absurd hsup not_extends_root
    · have hextends := (ok.parent?_iff hc (Hierarchy.parent?_mem hq)).mp hq
      rw [inherited_child hc hq]
      refine (habove q hq b).trans ?_
      constructor
      · intro h
        exact ⟨q.name, hextends, h⟩
      · intro h
        obtain ⟨sup, hsup, h⟩ := h
        rw [hextends.unique ok.classNames_nodup hsup]
        exact h

theorem chain_iff_sees {α β : Type} {table : Members → ScopeStack α} {view : α → β}
    {declares : ClassDecl → String → β → Prop} {key name : String}
    (hown : ∀ c ∈ p.hierarchy.classes, ∀ b,
      (∃ a, (table (p.hierarchy.members c).value).find? key = some a ∧ view a = b) ↔
        declares c.decl name b) {c : ClassNode} (hc : c ∈ p.hierarchy.classes) (b : β) :
    (∃ a, ScopeStack.lookup ((p.hierarchy.memberChain c).map table) key = some a ∧ view a = b) ↔
      p.Sees declares c.name name b := by
  revert b
  refine (Hierarchy.ofProgram_linked (some p)).parent_induction ?_ hc
  intro c hc ih b
  exact ok.lookup_iff_sees hc (hown c hc) ih b

section Quiet

variable (hdot : ∀ d ∈ p.decls, ∀ f ∈ d.fields, Dotless f.name)
include hdot

theorem fields_dotless {c : ClassNode} (hc : c ∈ p.hierarchy.classes) :
    ∀ f ∈ c.decl.fields, Dotless f.name := by
  rcases List.mem_append.mp (ok.mem_allDecls.mpr ⟨c, hc, rfl⟩) with hd | hd
  · obtain ⟨b, hb, hdecl⟩ := List.mem_map.mp hd
    rw [← hdecl, (Registry.builtIn_members b hb).1]
    simp
  · exact hdot _ hd

theorem members_quiet_iff {c : ClassNode} (hc : c ∈ p.hierarchy.classes) :
    (p.hierarchy.members c).reports = [] ↔
      Members.Declarable p.hierarchy (p.hierarchy.inherited c) c.decl.fields c.decl.methods :=
  Members.ofClass_reports_eq_nil_iff (ok.fields_dotless hdot hc)

theorem members_lists {c : ClassNode} (hc : c ∈ p.hierarchy.classes)
    (quiet : (p.hierarchy.members c).reports = []) :
    (p.hierarchy.members c).value.Lists c c.decl.fields c.decl.methods :=
  Members.ofClass_lists (ok.fields_dotless hdot hc) ((ok.members_quiet_iff hdot hc).mp quiet)

theorem method_iff_sees_step {c : ClassNode} (hc : c ∈ p.hierarchy.classes)
    (quiet : (p.hierarchy.members c).reports = [])
    (habove : ∀ q, p.hierarchy.parent? c = some q → ∀ x t,
      (∃ s, ScopeStack.lookup ((p.hierarchy.memberChain q).map (·.signatures)) x = some s ∧
        s.type = t) ↔ p.Sees ClassDecl.HasMethod q.name x t) (x : String) (t : MethodType) :
    (∃ s, ScopeStack.lookup ((p.hierarchy.memberChain c).map (·.signatures)) x = some s ∧
      s.type = t) ↔ p.Sees ClassDecl.HasMethod c.name x t :=
  ok.lookup_iff_sees hc (((ok.members_lists hdot hc quiet).method x).view_iff Signature.type)
    (fun q hq => habove q hq x) t

theorem method_iff_sees (quiet : ∀ c ∈ p.hierarchy.classes, (p.hierarchy.members c).reports = [])
    {c : ClassNode} (hc : c ∈ p.hierarchy.classes) (x : String) (t : MethodType) :
    (∃ s, ScopeStack.lookup ((p.hierarchy.memberChain c).map (·.signatures)) x = some s ∧
      s.type = t) ↔ p.Sees ClassDecl.HasMethod c.name x t :=
  ok.chain_iff_sees (fun c hc =>
    ((ok.members_lists hdot hc (quiet c hc)).method x).view_iff Signature.type) hc t

theorem field_iff_sees (quiet : ∀ c ∈ p.hierarchy.classes, (p.hierarchy.members c).reports = [])
    {c : ClassNode} (hc : c ∈ p.hierarchy.classes) {x : String} (hx : Dotless x) (t : Ty) :
    (∃ s, ScopeStack.lookup ((p.hierarchy.memberChain c).map (·.vars)) x = some s ∧
      s.type = t) ↔ p.Sees ClassDecl.HasField c.name x t :=
  ok.chain_iff_sees (fun c hc =>
    ((ok.members_lists hdot hc (quiet c hc)).field x hx).view_iff Symbol.type) hc t

theorem selfField_iff_sees
    (quiet : ∀ c ∈ p.hierarchy.classes, (p.hierarchy.members c).reports = [])
    {c : ClassNode} (hc : c ∈ p.hierarchy.classes) (x : String) (t : Ty) :
    (∃ s, ScopeStack.lookup ((p.hierarchy.memberChain c).map (·.vars)) (Members.selfKey x) =
      some s ∧ s.type = t) ↔ p.Sees ClassDecl.HasField c.name x t :=
  ok.chain_iff_sees (fun c hc =>
    ((ok.members_lists hdot hc (quiet c hc)).selfField x).view_iff Symbol.type) hc t

theorem sees_of_declared
    (quiet : ∀ c ∈ p.hierarchy.classes, (p.hierarchy.members c).reports = []) {c : ClassNode}
    (hc : c ∈ p.hierarchy.classes) {e : ClassDecl} (he : e ∈ p.allDecls)
    (hup : Relation.ReflTransGen p.Extends c.name e.name) {x : String} {t : MethodType}
    (ht : e.HasMethod x t) : p.Sees ClassDecl.HasMethod c.name x t := by
  revert hup
  refine (Hierarchy.ofProgram_linked (some p)).parent_induction ?_ hc
  intro c hc ih hup
  have hdecl : c.decl ∈ p.allDecls := ok.mem_allDecls.mpr ⟨c, hc, rfl⟩
  rcases Relation.ReflTransGen.cases_head hup with hname | ⟨sup, hsup, hup⟩
  · cases ok.decl_eq hc he hname.symm
    exact .own hdecl ht
  rcases ok.root_or_parent hc with rfl | ⟨q, hq⟩
  · exact absurd hsup not_extends_root
  have hextends := (ok.parent?_iff hc (Hierarchy.parent?_mem hq)).mp hq
  rw [← hextends.unique ok.classNames_nodup hsup] at hup
  have hsees := ih q hq hup
  -- a method that is declared again has the type of the one it hides
  by_cases hown : ∃ u, c.decl.HasMethod x u
  · obtain ⟨u, m, hm, rfl, rfl⟩ := hown
    obtain ⟨s, hs, hst⟩ :=
      (ok.method_iff_sees hdot quiet (Hierarchy.parent?_mem hq) m.name t).mpr hsees
    rw [← inherited_child hc hq] at hs
    have hagree := ((ok.members_quiet_iff hdot hc).mp (quiet c hc)).methods_ok m hm
    rw [← hst, hagree.2.2 s hs]
    exact .own hdecl ⟨m, hm, rfl, rfl⟩
  · exact .above hdecl (not_exists.mp hown) hextends hsees

theorem membersOk_of_quiet
    (quiet : ∀ c ∈ p.hierarchy.classes, (p.hierarchy.members c).reports = []) {d : ClassDecl}
    (hd : d ∈ p.allDecls) : p.MembersOk d := by
  obtain ⟨c, hc, rfl⟩ := ok.mem_allDecls.mp hd
  have declarable := (ok.members_quiet_iff hdot hc).mp (quiet c hc)
  refine ⟨declarable.fields_distinct, fun f hf => (declarable.fields_ok f hf).1,
    fun f hf => ok.knows_iff.mp (declarable.fields_ok f hf).2, declarable.methods_distinct,
    fun m hm => (declarable.methods_ok m hm).1,
    fun m hm => ok.canReturn_iff.mp (declarable.methods_ok m hm).2.1, ?_⟩
  intro m hm e he hup t ht
  obtain ⟨sup, hsup, hup⟩ := Relation.TransGen.head'_iff.mp hup
  rcases ok.root_or_parent hc with rfl | ⟨q, hq⟩
  · exact absurd hsup not_extends_root
  have hextends := (ok.parent?_iff hc (Hierarchy.parent?_mem hq)).mp hq
  rw [← hextends.unique ok.classNames_nodup hsup] at hup
  have hmem := Hierarchy.parent?_mem hq
  have hsees := ok.sees_of_declared hdot quiet hmem he hup ht
  obtain ⟨s, hs, rfl⟩ := (ok.method_iff_sees hdot quiet hmem m.name t).mpr hsees
  rw [← inherited_child hc hq] at hs
  exact (declarable.methods_ok m hm).2.2 s hs

theorem quiet_of_membersOk (hmembers : ∀ d ∈ p.allDecls, p.MembersOk d) {c : ClassNode}
    (hc : c ∈ p.hierarchy.classes) : (p.hierarchy.members c).reports = [] := by
  -- a class can only be judged once the class above finds what it sees, so both go up together
  suffices hboth : (p.hierarchy.members c).reports = [] ∧ ∀ x t,
      (∃ s, ScopeStack.lookup ((p.hierarchy.memberChain c).map (·.signatures)) x = some s ∧
        s.type = t) ↔ p.Sees ClassDecl.HasMethod c.name x t from hboth.1
  refine (Hierarchy.ofProgram_linked (some p)).parent_induction ?_ hc
  intro c hc ih
  have membersOk := hmembers c.decl (ok.mem_allDecls.mpr ⟨c, hc, rfl⟩)
  have quiet : (p.hierarchy.members c).reports = [] := by
    refine (ok.members_quiet_iff hdot hc).mpr ⟨membersOk.fields_distinct, ?_,
      membersOk.methods_distinct, ?_⟩
    · intro f hf
      exact ⟨membersOk.fields_unreserved f hf, ok.knows_iff.mpr (membersOk.fields_known f hf)⟩
    · intro m hm
      refine ⟨membersOk.methods_unreserved m hm,
        ok.canReturn_iff.mpr (membersOk.results_known m hm), ?_⟩
      intro s hs
      rcases ok.root_or_parent hc with rfl | ⟨q, hq⟩
      · rw [Hierarchy.inherited_root] at hs
        cases hs
      · rw [inherited_child hc hq] at hs
        have hsees := ((ih q hq).2 m.name s.type).mp ⟨s, hs, rfl⟩
        obtain ⟨e, he, hup, hdeclares⟩ := hsees.declared
        have hextends := (ok.parent?_iff hc (Hierarchy.parent?_mem hq)).mp hq
        exact membersOk.overrides m hm e he (.head' hextends hup) s.type hdeclares
  exact ⟨quiet, ok.method_iff_sees_step hdot hc quiet fun q hq => (ih q hq).2⟩

end Quiet

theorem builtIn_overrides {b : Registered} (hb : b ∈ Registry.builtIn.classes) {m : Method}
    (hm : m ∈ b.decl.methods) {e : ClassDecl} (he : e ∈ p.allDecls)
    (hup : Relation.TransGen p.Extends b.decl.name e.name) {t : MethodType} :
    ¬ e.HasMethod m.name t := by
  have hmem : ∀ c ∈ Registry.builtIn.classes, c.decl ∈ p.allDecls :=
    fun c hc => List.mem_append_left _ (List.mem_map_of_mem hc)
  obtain ⟨sup, hsup, hup⟩ := Relation.TransGen.head'_iff.mp hup
  rcases List.mem_cons.mp hb with rfl | ho
  · exact absurd hsup not_extends_root
  have hroot : ∀ c ∈ Registry.builtIn.others,
      c.decl.name ≠ BuiltIn.rootName ∧ c.decl.parentName = BuiltIn.rootName := by decide
  have hextends : p.Extends b.decl.name BuiltIn.rootName :=
    ⟨b.decl, hmem b hb, rfl, (hroot b ho).1, (hroot b ho).2⟩
  rw [← hextends.unique ok.classNames_nodup hsup] at hup
  rcases Relation.ReflTransGen.cases_head hup with hname | ⟨_, hsup, -⟩
  · cases eq_of_mem_allDecls ok.classNames_nodup he (hmem _ Registry.builtIn.root_mem) hname.symm
    intro hdeclares
    obtain ⟨m', hm', hname, -⟩ := hdeclares
    have hclash : ∀ c ∈ Registry.builtIn.others, ∀ m ∈ c.decl.methods,
        ∀ m' ∈ BuiltIn.root.decl.methods, m'.name ≠ m.name := by decide
    exact hclash b ho m hm m' hm' hname
  · exact absurd hsup not_extends_root

theorem builtIn_membersOk {b : Registered} (hb : b ∈ Registry.builtIn.classes) :
    p.MembersOk b.decl := by
  obtain ⟨hfields, hdistinct, hmethods⟩ := Registry.builtIn_members b hb
  refine ⟨by simp [hfields], by simp [hfields], by simp [hfields], hdistinct,
    fun m hm => (hmethods m hm).1, ?_, ?_⟩
  · intro m hm
    exact (hmethods m hm).2.imp_right known_of_builtIn
  · intro m hm e he hup t ht
    exact absurd ht (ok.builtIn_overrides hb hm he hup)

/-- No member is refused exactly if those of the program are in order. -/
theorem members_quiet_iff_membersOk (hdot : ∀ d ∈ p.decls, ∀ f ∈ d.fields, Dotless f.name) :
    (∀ c ∈ p.hierarchy.classes, (p.hierarchy.members c).reports = []) ↔
      ∀ d ∈ p.decls, p.MembersOk d := by
  constructor
  · intro quiet d hd
    exact ok.membersOk_of_quiet hdot quiet (List.mem_append_right _ hd)
  · intro hmembers c hc
    refine ok.quiet_of_membersOk hdot ?_ hc
    intro d hd
    rcases List.mem_append.mp hd with hd | hd
    · obtain ⟨b, hb, rfl⟩ := List.mem_map.mp hd
      exact ok.builtIn_membersOk hb
    · exact hmembers d hd

theorem entry_quiet_iff (hdot : ∀ d ∈ p.decls, ∀ f ∈ d.fields, Dotless f.name)
    (quiet : ∀ c ∈ p.hierarchy.classes, (p.hierarchy.members c).reports = [])
    (className methodName : String) :
    (EntryPoint.ofNames className methodName).problems (.ofHierarchy p.hierarchy) = [] ↔
      p.EntryOk className methodName := by
  have linked := Hierarchy.ofProgram_linked (some p)
  rw [EntryPoint.problems, ClassTable.find?_ofHierarchy]
  simp only [EntryPoint.ofNames, EntryOk]
  generalize (if className = "" then "Main" else className) = n
  generalize (if methodName = "" then "main" else methodName) = x
  cases hfind : p.hierarchy.find? n with
  | none =>
    simp only [Option.map_none, List.cons_ne_nil, false_iff]
    intro h
    obtain ⟨d, hd, hname, -⟩ := h
    obtain ⟨c, hc, rfl⟩ := ok.mem_allDecls.mp hd
    rw [linked.find?_eq_some_iff.mpr ⟨hc, hname⟩] at hfind
    cases hfind
  | some c =>
    obtain ⟨hc, rfl⟩ := linked.find?_eq_some_iff.mp hfind
    have lists := ok.members_lists hdot hc (quiet c hc)
    have hpeek : (p.hierarchy.classInfo c).own.signatures.peek x =
        (p.hierarchy.members c).value.signatures.find? x := lists.signatures_flat x
    simp only [Option.map_some, hpeek]
    cases hsig : (p.hierarchy.members c).value.signatures.find? x with
    | none =>
      simp only [List.cons_ne_nil, false_iff]
      intro h
      obtain ⟨d, hd, hname, m, hm, hmx, -⟩ := h
      cases ok.decl_eq hc hd hname
      exact (lists.method x).eq_none_iff.mp hsig (List.mem_map.mpr ⟨m, hm, hmx⟩)
    | some sig =>
      obtain ⟨m, hm, hmx, rfl⟩ := (lists.method x sig).mp hsig
      have hproblems : ∀ as bs : List (Located EntryProblem), as ≠ [] → bs ≠ [] →
          ((if (Members.signature c m).params.isEmpty then [] else as) ++
            (if (Members.signature c m).returnType = .void then [] else bs) = [] ↔
              m.formals = [] ∧ m.returnType = .void) := by
        intro as bs has hbs
        by_cases hvoid : m.returnType = .void <;> simp [Members.signature, hvoid, has, hbs]
      rw [hproblems _ _ (by simp) (by simp)]
      constructor
      · intro h
        exact ⟨c.decl, ok.mem_allDecls.mpr ⟨c, hc, rfl⟩, rfl, m, hm, hmx, h⟩
      · intro h
        obtain ⟨d, hd, hname, m', hm', hmx', h⟩ := h
        cases ok.decl_eq hc hd hname
        have hdistinct := ((ok.members_quiet_iff hdot hc).mp (quiet c hc)).methods_distinct
        cases List.inj_on_of_nodup_map hdistinct hm hm' (hmx.trans hmx'.symm)
        exact h

end HierarchyOk

end Program

end ClassCheck
