import ClassCheck.Proofs.Ancestry
import ClassCheck.Proofs.Phases
import ClassCheck.Proofs.WellFormed

/-!
# Declarations and the hierarchy

Once no name is declared twice, the registry has exactly the declared classes, and its steps from
class to class are the relation `Program.Extends` between names. From this follows when linking has
nothing to report, and that links are that relation too.
-/

namespace ClassCheck

theorem transGen_name_iff {α : Type} {step : α → Option α} {l : List α} {name : α → String}
    {R : String → String → Prop} (closed : ∀ a ∈ l, ∀ b, step a = some b → b ∈ l)
    (hstep : ∀ a ∈ l, ∀ b ∈ l, step a = some b ↔ R (name a) (name b))
    (hsource : ∀ x y, R x y → ∃ a ∈ l, name a = x) {a b : α} (ha : a ∈ l) (hb : b ∈ l) :
    Relation.TransGen R (name a) (name b) ↔ ∃ n, follow step (n + 1) a = some b := by
  constructor
  · intro h
    generalize hx : name a = x at h
    induction h using Relation.TransGen.head_induction_on generalizing a with
    | single hxy =>
      subst hx
      refine ⟨0, ?_⟩
      rw [follow_succ, (hstep a ha b hb).mpr hxy, Option.bind_some, follow_zero]
    | head hxz hzy ih =>
      subst hx
      obtain ⟨w, hzw, -⟩ := Relation.TransGen.head'_iff.mp hzy
      obtain ⟨c, hc, rfl⟩ := hsource _ _ hzw
      obtain ⟨n, hn⟩ := ih hc rfl
      refine ⟨n + 1, ?_⟩
      rw [follow_succ, (hstep a ha c hc).mpr hxz, Option.bind_some, hn]
  · intro h
    obtain ⟨n, hn⟩ := h
    induction n generalizing a with
    | zero =>
      rw [follow_succ] at hn
      obtain ⟨c, hac, hcb⟩ := Option.bind_eq_some_iff.mp hn
      cases hcb
      exact .single ((hstep a ha b hb).mp hac)
    | succ n ih =>
      rw [follow_succ] at hn
      obtain ⟨c, hac, hcb⟩ := Option.bind_eq_some_iff.mp hn
      have hc := closed a ha c hac
      exact .head ((hstep a ha c hc).mp hac) (ih hc hcb)

namespace Program

variable {p : Program}

theorem mem_decls {d : ClassDecl} : d ∈ p.decls ↔ some d ∈ p.classes := by
  simp [decls]

theorem classNames_eq (p : Program) :
    p.classNames = Registry.builtIn.names ++ p.decls.map (·.name) := by
  simp only [classNames, allDecls, List.map_append, List.map_map]
  rfl

theorem Extends.source {sub sup : String} (h : p.Extends sub sup) : sub ∈ p.classNames := by
  obtain ⟨d, hd, rfl, -⟩ := h
  exact List.mem_map_of_mem hd

theorem eq_of_mem_allDecls (nodup : p.classNames.Nodup) {d e : ClassDecl} (hd : d ∈ p.allDecls)
    (he : e ∈ p.allDecls) (h : d.name = e.name) : d = e :=
  List.inj_on_of_nodup_map nodup hd he h

theorem Extends.unique (nodup : p.classNames.Nodup) {sub sup sup' : String}
    (h : p.Extends sub sup) (h' : p.Extends sub sup') : sup = sup' := by
  obtain ⟨d, hd, hname, -, rfl⟩ := h
  obtain ⟨d', hd', hname', -, rfl⟩ := h'
  rw [eq_of_mem_allDecls nodup hd hd' (hname.trans hname'.symm)]

theorem not_extends_root {sup : String} : ¬ p.Extends BuiltIn.rootName sup := by
  intro h
  obtain ⟨d, -, -, hne, -⟩ := h
  exact hne rfl

theorem classNames_nodup_iff : p.classNames.Nodup ↔
    (p.decls.map (·.name)).Nodup ∧
      ∀ d ∈ p.decls, d.name ∉ Registry.builtIn.classes.map (·.name) := by
  rw [classNames_eq, List.nodup_append]
  constructor
  · intro h
    refine ⟨h.2.1, ?_⟩
    intro d hd hname
    exact h.2.2 _ hname _ (List.mem_map_of_mem hd) rfl
  · intro h
    refine ⟨Registry.builtIn_sound.names_nodup, h.1, ?_⟩
    intro n hn m hm hnm
    obtain ⟨d, hd, rfl⟩ := List.mem_map.mp hm
    exact h.2 d hd (hnm ▸ hn)

end Program

namespace Registry

/-- The registry has the built-in classes and the declared ones. -/
structure Holds (r : Registry) (p : Program) : Prop extends r.Sound where
  mem_others : ∀ c, c ∈ r.others ↔
    c ∈ builtIn.others ∨ c.origin = .user ∧ c.decl ∈ p.decls

theorem mem_ofProgram {program : Option Program} {c : Registered}
    (hc : c ∈ (ofProgram program).value.classes) :
    c ∈ builtIn.classes ∨
      c.isBuiltIn = false ∧ some c.decl ∈ (program.map (·.classes)).getD [] := by
  rcases List.mem_cons.mp hc with rfl | ho
  · exact .inl List.mem_cons_self
  · rcases mem_register_others.mp ho with hb | ⟨d, rfl, hfirst, -⟩
    · exact .inl (List.mem_cons_of_mem _ hb)
    · exact .inr ⟨rfl, hfirst.mem⟩

theorem ofProgram_quiet_iff {p : Program} :
    (ofProgram (some p)).reports = [] ↔ p.classNames.Nodup := by
  rw [p.classNames_eq]
  exact register_reports_eq_nil_iff builtIn_sound.names_nodup

theorem ofProgram_holds {p : Program} (nodup : p.classNames.Nodup) :
    (ofProgram (some p)).value.Holds p where
  toSound := ofProgram_sound (some p)
  mem_others := by
    intro c
    refine mem_register_others.trans (or_congr_right ?_)
    constructor
    · intro h
      obtain ⟨d, rfl, hfirst, -⟩ := h
      exact ⟨rfl, Program.mem_decls.mpr hfirst.mem⟩
    · intro h
      obtain ⟨horigin, hdecl⟩ := h
      rw [p.classNames_eq] at nodup
      obtain ⟨hfirst, hname⟩ := firstDeclared_of_nodup nodup (Program.mem_decls.mp hdecl)
      exact ⟨c.decl, by rw [← horigin], hfirst, hname⟩

namespace Sound

variable {r : Registry} (sound : r.Sound)
include sound

theorem leadsTo_root {c : Registered} (hc : c ∈ r.others) : r.leadsTo BuiltIn.root c = false := by
  rw [Bool.eq_false_iff]
  intro h
  obtain ⟨n, hn⟩ := (leadsTo_iff sound r.root_mem hc).mp h
  cases n with
  | zero =>
    cases hn
    have := sound.others_not_root _ hc
    cases this
  | succ n => cases hn

theorem resolveParent_builtIn {c : Registered} (hb : c ∈ builtIn.others) (hc : c ∈ r.others) :
    r.resolveParent c = .ok BuiltIn.root := by
  have hwanted : c.wantedParent = BuiltIn.rootName := by
    have hall : ∀ b ∈ builtIn.others, b.wantedParent = BuiltIn.rootName := by decide
    exact hall c hb
  refine resolveParent_eq_ok_iff.mpr ⟨?_, rfl, sound.leadsTo_root hc⟩
  rw [hwanted]
  exact sound.find?_eq_some_iff.mpr ⟨r.root_mem, rfl⟩

end Sound

namespace Holds

variable {r : Registry} {p : Program} (holds : r.Holds p)
include holds

theorem mem_allDecls {d : ClassDecl} : d ∈ p.allDecls ↔ ∃ c ∈ r.classes, c.decl = d := by
  rw [Program.allDecls, List.mem_append, List.mem_map]
  constructor
  · intro h
    rcases h with ⟨c, hc, rfl⟩ | hd
    · rcases List.mem_cons.mp hc with rfl | ho
      · exact ⟨_, r.root_mem, rfl⟩
      · exact ⟨c, others_subset ((holds.mem_others c).mpr (.inl ho)), rfl⟩
    · exact ⟨⟨d, .user⟩, others_subset ((holds.mem_others _).mpr (.inr ⟨rfl, hd⟩)), rfl⟩
  · intro h
    obtain ⟨c, hc, rfl⟩ := h
    rcases List.mem_cons.mp hc with rfl | ho
    · exact .inl ⟨_, builtIn.root_mem, rfl⟩
    · rcases (holds.mem_others c).mp ho with hb | hu
      · exact .inl ⟨c, others_subset hb, rfl⟩
      · exact .inr hu.2

theorem mem_classNames {n : String} : n ∈ p.classNames ↔ n ∈ r.names := by
  simp only [Program.classNames, names, List.mem_map, holds.mem_allDecls]
  constructor
  · intro h
    obtain ⟨d, ⟨c, hc, rfl⟩, rfl⟩ := h
    exact ⟨c, hc, rfl⟩
  · intro h
    obtain ⟨c, hc, rfl⟩ := h
    exact ⟨c.decl, ⟨c, hc, rfl⟩, rfl⟩

theorem name_eq_root_iff {c : Registered} (hc : c ∈ r.classes) :
    c.name = BuiltIn.rootName ↔ c.isRoot = true := by
  rw [holds.isRoot_iff hc]
  constructor
  · intro h
    exact holds.eq_of_name hc r.root_mem h
  · intro h
    rw [h]
    rfl

theorem wanted?_iff {c q : Registered} (hc : c ∈ r.classes) (hq : q ∈ r.classes) :
    r.wanted? c = some q ↔ p.Extends c.name q.name := by
  rw [wanted?_eq_some_iff, holds.find?_eq_some_iff, ← Bool.not_eq_true,
    ← holds.name_eq_root_iff hc]
  constructor
  · intro h
    obtain ⟨hroot, -, hname⟩ := h
    exact ⟨c.decl, holds.mem_allDecls.mpr ⟨c, hc, rfl⟩, rfl, hroot, hname.symm⟩
  · intro h
    obtain ⟨d, hd, hname, hroot, hparent⟩ := h
    obtain ⟨c', hc', rfl⟩ := holds.mem_allDecls.mp hd
    cases holds.eq_of_name hc' hc hname
    exact ⟨hroot, hq, hparent.symm⟩

theorem transGen_extends_iff {c q : Registered} (hc : c ∈ r.classes) (hq : q ∈ r.classes) :
    Relation.TransGen p.Extends c.name q.name ↔ ∃ n, follow r.wanted? (n + 1) c = some q := by
  refine transGen_name_iff (fun _ _ _ h => wanted?_mem h)
    (fun a ha b hb => holds.wanted?_iff ha hb) ?_ hc hq
  intro x y hxy
  obtain ⟨a, ha, rfl⟩ := List.mem_map.mp (holds.mem_classNames.mp hxy.source)
  exact ⟨a, ha, rfl⟩

theorem isExtendable_iff {c : Registered} (hc : c ∈ r.classes) (nodup : p.classNames.Nodup) :
    c.isExtendable = true ↔ c.name ∉ ["String", "TextIO", "Sys"] := by
  rcases List.mem_cons.mp hc with rfl | ho
  · decide
  rcases (holds.mem_others c).mp ho with hb | ⟨horigin, hdecl⟩
  · rcases List.mem_cons.mp hb with rfl | hb
    · decide
    rcases List.mem_cons.mp hb with rfl | hb
    · decide
    rw [List.mem_singleton.mp hb]
    decide
  · have hnew : c.name ∉ builtIn.names := (Program.classNames_nodup_iff.mp nodup).2 _ hdecl
    refine iff_of_true (by simp [Registered.isExtendable, horigin]) ?_
    exact fun h => hnew (List.mem_cons_of_mem _ h)

theorem resolveParent_ok_iff (nodup : p.classNames.Nodup) {c : Registered} (hc : c ∈ r.others) :
    (∃ q, r.resolveParent c = .ok q) ↔
      c.decl.parentName ∈ p.classNames ∧ c.decl.parentName ∉ ["String", "TextIO", "Sys"] ∧
        ¬ Relation.TransGen p.Extends c.name c.name := by
  have hmem := others_subset hc
  -- a cycle through `c` is a way back to it from the parent that it asks for
  have hcycle : ∀ q ∈ r.classes, q.name = c.wantedParent →
      ((∃ n, follow r.wanted? (n + 1) c = some c) ↔ r.leadsTo q c = true) := by
    intro q hq hname
    have hwanted : r.wanted? c = some q := wanted?_eq_some_iff.mpr
      ⟨holds.others_not_root c hc, holds.find?_eq_some_iff.mpr ⟨hq, hname⟩⟩
    rw [leadsTo_iff holds.toSound hq hc]
    simp only [follow_succ, hwanted, Option.bind_some]
  simp only [resolveParent_eq_ok_iff, holds.find?_eq_some_iff, holds.transGen_extends_iff hmem hmem,
    holds.mem_classNames]
  constructor
  · intro h
    obtain ⟨q, ⟨hq, hname⟩, hopen, hleads⟩ := h
    refine ⟨List.mem_map.mpr ⟨q, hq, hname⟩, ?_, ?_⟩
    · have hsealed := (holds.isExtendable_iff hq nodup).mp hopen
      rwa [hname] at hsealed
    · rw [hcycle q hq hname, hleads]
      exact Bool.false_ne_true
  · intro h
    obtain ⟨hparent, hopen, hacyclic⟩ := h
    obtain ⟨q, hq, hname⟩ := List.mem_map.mp hparent
    rw [hcycle q hq hname, Bool.not_eq_true] at hacyclic
    exact ⟨q, ⟨hq, hname⟩, (holds.isExtendable_iff hq nodup).mpr (hname ▸ hopen), hacyclic⟩

theorem links_quiet_iff (nodup : p.classNames.Nodup) :
    (Hierarchy.ofRegistry r).reports = [] ↔ ∀ d ∈ p.decls,
      d.parentName ∈ p.classNames ∧ d.parentName ∉ ["String", "TextIO", "Sys"] ∧
        ¬ Relation.TransGen p.Extends d.name d.name := by
  rw [Hierarchy.ofRegistry_reports_eq_nil_iff]
  constructor
  · intro h d hd
    have hc : (⟨d, .user⟩ : Registered) ∈ r.others := (holds.mem_others _).mpr (.inr ⟨rfl, hd⟩)
    exact (holds.resolveParent_ok_iff nodup hc).mp (h _ hc)
  · intro h c hc
    rcases (holds.mem_others c).mp hc with hb | hu
    · exact ⟨_, holds.resolveParent_builtIn hb hc⟩
    · exact (holds.resolveParent_ok_iff nodup hc).mpr (h _ hu.2)

end Holds

end Registry

namespace Program

variable {p : Program}

abbrev hierarchy (p : Program) : Hierarchy := .ofProgram (some p)

theorem HierarchyOk.classNames_nodup (ok : p.HierarchyOk) : p.classNames.Nodup :=
  classNames_nodup_iff.mpr ⟨ok.names_distinct, ok.names_new⟩

/-- The first two phases report nothing exactly if the classes fit together. -/
theorem hierarchyOk_iff : p.HierarchyOk ↔
    (Registry.ofProgram (some p)).reports = [] ∧
      (Hierarchy.ofRegistry (Registry.ofProgram (some p)).value).reports = [] := by
  rw [Registry.ofProgram_quiet_iff]
  constructor
  · intro ok
    have nodup := ok.classNames_nodup
    refine ⟨nodup, ((Registry.ofProgram_holds nodup).links_quiet_iff nodup).mpr ?_⟩
    exact fun d hd => ⟨ok.parent_exists d hd, ok.parent_open d hd, ok.acyclic d hd⟩
  · intro h
    obtain ⟨nodup, hlinks⟩ := h
    have hparents := ((Registry.ofProgram_holds nodup).links_quiet_iff nodup).mp hlinks
    obtain ⟨hdistinct, hnew⟩ := classNames_nodup_iff.mp nodup
    exact ⟨hdistinct, hnew, fun d hd => (hparents d hd).1, fun d hd => (hparents d hd).2.1,
      fun d hd => (hparents d hd).2.2⟩

namespace HierarchyOk

variable (ok : p.HierarchyOk)
include ok

theorem mem_allDecls {d : ClassDecl} :
    d ∈ p.allDecls ↔ ∃ c ∈ p.hierarchy.classes, c.decl = d := by
  rw [(Registry.ofProgram_holds ok.classNames_nodup).mem_allDecls,
    ← Hierarchy.ofRegistry_registered]
  simp

theorem mem_classNames {n : String} :
    n ∈ p.classNames ↔ ∃ c ∈ p.hierarchy.classes, c.name = n := by
  rw [(Registry.ofProgram_holds ok.classNames_nodup).mem_classNames, ← Hierarchy.ofRegistry_names]
  exact List.mem_map

theorem root_or_parent {c : ClassNode} (hc : c ∈ p.hierarchy.classes) :
    c = Hierarchy.root ∨ ∃ q, p.hierarchy.parent? c = some q := by
  rcases List.mem_cons.mp hc with rfl | ho
  · exact .inl rfl
  · refine .inr (Option.ne_none_iff_exists'.mp ?_)
    rw [Ne, (Hierarchy.ofProgram_linked (some p)).parent?_eq_none_iff hc]
    exact Hierarchy.ofRegistry_parent (hierarchyOk_iff.mp ok).2 ho

theorem parent?_iff {c q : ClassNode} (hc : c ∈ p.hierarchy.classes)
    (hq : q ∈ p.hierarchy.classes) :
    p.hierarchy.parent? c = some q ↔ p.Extends c.name q.name := by
  have holds := Registry.ofProgram_holds ok.classNames_nodup
  have hextends : ∀ b, p.hierarchy.parent? c = some b →
      p.Extends c.name b.name := by
    intro b hb
    refine (holds.wanted?_iff (Hierarchy.ofRegistry_mem_registered hc)
      (Hierarchy.ofRegistry_mem_registered (Hierarchy.parent?_mem hb))).mp ?_
    exact (Hierarchy.ofRegistry_link holds.toSound hc hb).1
  constructor
  · exact hextends q
  · intro h
    rcases ok.root_or_parent hc with rfl | ⟨b, hb⟩
    · exact absurd h not_extends_root
    · have hname := (hextends b hb).unique ok.classNames_nodup h
      rw [hb, (Hierarchy.ofProgram_linked (some p)).eq_of_name (Hierarchy.parent?_mem hb) hq hname]

theorem transGen_extends_iff {c q : ClassNode}
    (hc : c ∈ p.hierarchy.classes)
    (hq : q ∈ p.hierarchy.classes) :
    Relation.TransGen p.Extends c.name q.name ↔
      ∃ n, follow p.hierarchy.parent? (n + 1) c = some q := by
  refine transGen_name_iff (Hierarchy.parent?_closed _) (fun a ha b hb => ok.parent?_iff ha hb) ?_
    hc hq
  intro x y hxy
  exact ok.mem_classNames.mp hxy.source

theorem decl_eq {c : ClassNode} (hc : c ∈ p.hierarchy.classes) {d : ClassDecl}
    (hd : d ∈ p.allDecls) (h : d.name = c.name) : d = c.decl :=
  eq_of_mem_allDecls ok.classNames_nodup hd (ok.mem_allDecls.mpr ⟨c, hc, rfl⟩) h

end HierarchyOk

end Program

end ClassCheck
