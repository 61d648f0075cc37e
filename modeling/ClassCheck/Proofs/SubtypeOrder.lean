import ClassCheck.Proofs.HierarchyShape
import ClassCheck.Proofs.MemberTables

/-!
# Subtyping is a partial order

Types are compared by equality, by the shortcut to the root, and by the links of the classes that
their names denote. No link leads back, and none leads on from the root, so these agree in an order
with the root above every reference type. Nothing is asked of the program, nor of the types: they
may have the names of classes whose links were refused, of special types, or of no class at all.
-/

namespace ClassCheck

theorem Ty.eq_plain {t : Ty} {name : String} (hname : t.name = name) (harray : t.isArray = false) :
    t = .plain name := by
  obtain ⟨_, _⟩ := t
  subst hname harray
  rfl

namespace Hierarchy

def Leads (h : Hierarchy) (sub sup : String) : Prop :=
  ∃ c d n, h.find? sub = some c ∧ h.find? sup = some d ∧ follow h.parent? n c = some d

theorem Leads.trans {h : Hierarchy} {a b c : String} (hab : h.Leads a b) (hbc : h.Leads b c) :
    h.Leads a c := by
  obtain ⟨x, y, n, hx, hy, hxy⟩ := hab
  obtain ⟨y', z, m, hy', hz, hyz⟩ := hbc
  obtain rfl : y = y' := Option.some.inj (hy.symm.trans hy')
  refine ⟨x, z, n + m, hx, hz, ?_⟩
  rw [follow_add, hxy, Option.bind_some, hyz]

namespace Linked

variable {h : Hierarchy} (linked : h.Linked)
include linked

theorem leads_antisymm {a b : String} (hab : h.Leads a b) (hba : h.Leads b a) : a = b := by
  obtain ⟨x, y, n, hx, hy, hxy⟩ := hab
  obtain ⟨y', x', m, hy', hx', hyx⟩ := hba
  obtain rfl : y = y' := Option.some.inj (hy.symm.trans hy')
  obtain rfl : x = x' := Option.some.inj (hx.symm.trans hx')
  obtain ⟨hmem, rfl⟩ := linked.find?_eq_some_iff.mp hx
  obtain ⟨-, rfl⟩ := linked.find?_eq_some_iff.mp hy
  have hround : follow h.parent? (n + m) x = some x := by
    rw [follow_add, hxy, Option.bind_some, hyx]
  -- a round trip of any length is a cycle, so it has none
  cases n with
  | zero => rw [Option.some.inj hxy]
  | succ n =>
    rw [Nat.succ_add] at hround
    exact absurd hround (linked.acyclic x hmem (n + m))

theorem eq_root_of_leads {b : String} (hb : h.Leads BuiltIn.rootName b) :
    b = BuiltIn.rootName := by
  obtain ⟨x, y, n, hx, hy, hxy⟩ := hb
  have hroot : h.find? BuiltIn.rootName = some root := rfl
  obtain rfl : root = x := Option.some.inj (hroot.symm.trans hx)
  obtain ⟨-, rfl⟩ := linked.find?_eq_some_iff.mp hy
  cases n with
  | zero => rw [← Option.some.inj hxy]; rfl
  | succ n =>
    rw [follow_succ, h.parent?_root] at hxy
    cases hxy

theorem find?_descends_iff {sub sup : String} :
    (match (ClassTable.ofHierarchy h).find? sub, (ClassTable.ofHierarchy h).find? sup with
      | some c, some d => c.descendsFrom d
      | _, _ => false) = true ↔ h.Leads sub sup := by
  rw [ClassTable.find?_ofHierarchy, ClassTable.find?_ofHierarchy]
  cases hc : h.find? sub with
  | none => simp [Leads, hc]
  | some c =>
    cases hd : h.find? sup with
    | none => simp [Leads, hd]
    | some d =>
      have hcmem := find?_mem hc
      have hdmem := find?_mem hd
      simpa [Leads, hc, hd] using linked.descendsFrom_iff hcmem hdmem

/-- When a type is a subtype of another, with the shortcut to the root beside the links. -/
theorem isSubtype_iff {sub sup : Ty} :
    (ClassTable.ofHierarchy h).isSubtype sub sup = true ↔
      sub = sup ∨ sub.isReference = true ∧ sup.isReference = true ∧
        (sup = .plain BuiltIn.rootName ∨
          sub.isArray = sup.isArray ∧ h.Leads sub.name sup.name) := by
  have hroot : (ClassTable.ofHierarchy h).root.type = .plain BuiltIn.rootName := rfl
  rw [ClassTable.isSubtype, hroot]
  by_cases heq : sub = sup
  · simp [heq]
  rw [if_neg heq, or_iff_right heq]
  by_cases hform : sub.isReference = true ∧ sup.isReference = true
  swap
  · rw [if_pos (by simpa [or_iff_not_imp_left] using hform)]
    exact iff_of_false Bool.false_ne_true fun hsub => hform ⟨hsub.1, hsub.2.1⟩
  rw [if_neg (by simp [hform]), ← and_assoc, and_iff_right hform]
  by_cases htop : sup = .plain BuiltIn.rootName
  · simp [htop]
  rw [if_neg htop, or_iff_right htop]
  by_cases harray : sub.isArray = sup.isArray
  · rw [if_neg (not_not_intro harray), and_iff_right harray]
    exact linked.find?_descends_iff
  · simp [harray]

theorem isSubtype_trans {a b c : Ty} (hab : (ClassTable.ofHierarchy h).isSubtype a b = true)
    (hbc : (ClassTable.ofHierarchy h).isSubtype b c = true) :
    (ClassTable.ofHierarchy h).isSubtype a c = true := by
  rcases linked.isSubtype_iff.mp hab with rfl | ⟨ha, -, habove⟩
  · exact hbc
  rcases linked.isSubtype_iff.mp hbc with rfl | ⟨-, hc, hcabove⟩
  · exact hab
  refine linked.isSubtype_iff.mpr (.inr ⟨ha, hc, ?_⟩)
  rcases hcabove with hctop | ⟨hcarray, hcleads⟩
  · exact .inl hctop
  rcases habove with rfl | ⟨hbarray, hbleads⟩
  · -- links do not leave the root, so the shortcut to the root serves once more
    have hname := linked.eq_root_of_leads hcleads
    exact .inl (Ty.eq_plain hname hcarray.symm)
  · exact .inr ⟨hbarray.trans hcarray, hbleads.trans hcleads⟩

theorem eq_root_of_isSubtype {t : Ty}
    (ht : (ClassTable.ofHierarchy h).isSubtype (.plain BuiltIn.rootName) t = true) :
    t = .plain BuiltIn.rootName := by
  rcases linked.isSubtype_iff.mp ht with heq | ⟨-, -, htop | ⟨harray, hleads⟩⟩
  · exact heq.symm
  · exact htop
  · exact Ty.eq_plain (linked.eq_root_of_leads hleads) harray.symm

theorem isSubtype_antisymm {a b : Ty} (hab : (ClassTable.ofHierarchy h).isSubtype a b = true)
    (hba : (ClassTable.ofHierarchy h).isSubtype b a = true) : a = b := by
  rcases linked.isSubtype_iff.mp hab with heq | ⟨-, -, hbtop | ⟨harray, hableads⟩⟩
  · exact heq
  · rw [hbtop] at hba ⊢
    exact linked.eq_root_of_isSubtype hba
  rcases linked.isSubtype_iff.mp hba with heq | ⟨-, -, hatop | ⟨-, hbaleads⟩⟩
  · exact heq.symm
  · rw [hatop] at hab ⊢
    exact (linked.eq_root_of_isSubtype hab).symm
  · obtain ⟨name, isArray⟩ := a
    obtain rfl : name = b.name := linked.leads_antisymm hableads hbaleads
    obtain rfl : isArray = b.isArray := harray
    rfl

theorem type_eq_type_iff {c d : ClassNode} (hc : c ∈ h.classes) (hd : d ∈ h.classes) :
    c.type = d.type ↔ c = d := by
  constructor
  · exact fun htype => linked.eq_of_name hc hd (congrArg Ty.name htype)
  · exact fun heq => by rw [heq]

theorem type_eq_root_iff {c : ClassNode} (hc : c ∈ h.classes) :
    c.type = .plain BuiltIn.rootName ↔ c = root :=
  linked.type_eq_type_iff hc h.root_mem

theorem leads_iff {c d : ClassNode} (hc : c ∈ h.classes) (hd : d ∈ h.classes) :
    h.Leads c.name d.name ↔ d ∈ c :: h.ancestors c := by
  have hcfind := linked.find?_eq_some_iff.mpr ⟨hc, rfl⟩
  have hdfind := linked.find?_eq_some_iff.mpr ⟨hd, rfl⟩
  rw [linked.mem_upward hc]
  simp [Leads, hcfind, hdfind]

theorem isSubtype_type_iff {c d : ClassNode} (hc : c ∈ h.classes) (hd : d ∈ h.classes)
    (hcclass : c.type.isClass = true) (hdclass : d.type.isClass = true) :
    (ClassTable.ofHierarchy h).isSubtype c.type d.type = true ↔
      d ∈ c :: h.ancestors c ∨ d = root := by
  have hform : ∀ t : Ty, t.isClass = true → t.isReference = true := by
    intro t ht
    rw [Ty.isReference, ht, Bool.or_true]
  rw [linked.isSubtype_iff, and_iff_right (hform _ hcclass), and_iff_right (hform _ hdclass),
    linked.type_eq_type_iff hc hd, linked.type_eq_root_iff hd]
  constructor
  · rintro (rfl | hroot | ⟨-, hleads⟩)
    · exact .inl List.mem_cons_self
    · exact .inr hroot
    · exact .inl ((linked.leads_iff hc hd).mp hleads)
  · rintro (hup | hroot)
    · exact .inr (.inr ⟨rfl, (linked.leads_iff hc hd).mpr hup⟩)
    · exact .inr (.inl hroot)

end Linked

end Hierarchy

/-- Whatever the program declares, subtyping is reflexive, transitive and antisymmetric on all
types, and has the root class above exactly the reference types. Classes are ordered as they
inherit. -/
theorem subtyping_is_partial_order (program : Option Program) (entry : EntryPoint) :
    let a := analyze program entry
    let object := Ty.plain "Object"
    (∀ t, a.table.isSubtype t t = true) ∧
    (∀ t u v, a.table.isSubtype t u = true → a.table.isSubtype u v = true →
      a.table.isSubtype t v = true) ∧
    (∀ t u, a.table.isSubtype t u = true → a.table.isSubtype u t = true → t = u) ∧
    (∀ t, a.table.isSubtype t object = true ↔ t.isReference = true) ∧
    (∀ t, a.table.isSubtype object t = true → t = object) ∧
    ∀ c ∈ a.order, ∀ d ∈ a.order, c.type.isClass = true → d.type.isClass = true →
      (a.table.isSubtype c.type d.type = true ↔
        d.toClassNode ∈ c.upward ∨ d.type = object) := by
  intro a object
  have linked := Hierarchy.ofProgram_linked program
  rw [show a.table = _ from table_analyze program entry]
  refine ⟨fun t => linked.isSubtype_iff.mpr (.inl rfl), fun t u v => linked.isSubtype_trans,
    fun t u => linked.isSubtype_antisymm, ?_, fun t => linked.eq_root_of_isSubtype, ?_⟩
  · intro t
    refine linked.isSubtype_iff.trans ?_
    constructor
    · rintro (rfl | ⟨ht, -⟩)
      · rfl
      · exact ht
    · exact fun ht => .inr ⟨ht, rfl, .inl rfl⟩
  · intro c hc d hd hcclass hdclass
    obtain ⟨n, hn, rfl⟩ := mem_analyze_order.mp hc
    obtain ⟨k, hk, rfl⟩ := mem_analyze_order.mp hd
    refine (linked.isSubtype_type_iff hn hk hcclass hdclass).trans ?_
    exact or_congr_right (linked.type_eq_root_iff hk).symm

end ClassCheck
