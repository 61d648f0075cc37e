import ClassCheck.Hierarchy
import ClassCheck.Proofs.Registration

/-! Links between classes. The cycle test follows declared parents, and every link is a declared
parent that passed the test, so no chain of links leads back to where it started. -/

namespace ClassCheck

namespace Registry

def wanted? (r : Registry) (c : Registered) : Option Registered :=
  if c.isRoot then none else r.find? c.wantedParent

variable {r : Registry}

theorem wanted?_eq_some_iff {c p : Registered} :
    r.wanted? c = some p ↔ c.isRoot = false ∧ r.find? c.wantedParent = some p := by
  cases hc : c.isRoot <;> simp [wanted?, hc]

theorem wanted?_mem {c p : Registered} (h : r.wanted? c = some p) : p ∈ r.classes :=
  List.mem_of_find?_eq_some (wanted?_eq_some_iff.mp h).2

theorem mem_wantedChain {n : Nat} {c b : Registered} :
    b ∈ r.wantedChain n c ↔ b.isRoot = false ∧ ∃ m < n, follow r.wanted? m c = some b := by
  induction n generalizing c with
  | zero => simp [wantedChain]
  | succ n ih =>
    cases hc : c.isRoot with
    | true =>
      simp only [wantedChain, hc, if_true, List.not_mem_nil, false_iff, not_and, not_exists]
      intro hb m hm hmb
      cases m with
      | zero =>
        rw [follow_zero, Option.some.injEq] at hmb
        rw [← hmb, hc] at hb
        cases hb
      | succ m => simp [follow_succ, wanted?, hc] at hmb
    | false =>
      have hstep : r.wanted? c = r.find? c.wantedParent := by simp [wanted?, hc]
      have hchain : r.wantedChain (n + 1) c =
          c :: ((r.wanted? c).map (r.wantedChain n)).getD [] := by
        simp [wantedChain, hc, hstep]
      rw [hchain, List.mem_cons]
      constructor
      · intro h
        rcases h with rfl | h
        · exact ⟨hc, 0, Nat.succ_pos n, rfl⟩
        · cases hp : r.wanted? c with
          | none => simp [hp] at h
          | some p =>
            rw [hp, Option.map_some, Option.getD_some, ih] at h
            obtain ⟨hb, m, hm, hmb⟩ := h
            refine ⟨hb, m + 1, Nat.succ_lt_succ hm, ?_⟩
            rw [follow_succ, hp, Option.bind_some, hmb]
      · intro h
        obtain ⟨hb, m, hm, hmb⟩ := h
        cases m with
        | zero =>
          rw [follow_zero, Option.some.injEq] at hmb
          exact Or.inl hmb.symm
        | succ m =>
          right
          obtain ⟨p, hp, hpb⟩ := Option.bind_eq_some_iff.mp (follow_succ m c ▸ hmb)
          rw [hp, Option.map_some, Option.getD_some, ih]
          exact ⟨hb, m, by omega, hpb⟩

/-- The bounded cycle test finds every class that declared parents lead to. -/
theorem leadsTo_iff (sound : r.Sound) {start target : Registered} (hs : start ∈ r.classes)
    (ht : target ∈ r.others) :
    r.leadsTo start target = true ↔ ∃ n, follow r.wanted? n start = some target := by
  have closed : ∀ a ∈ r.classes, ∀ b, r.wanted? a = some b → b ∈ r.classes :=
    fun a _ b hab => wanted?_mem hab
  simp only [leadsTo, List.any_eq_true, beq_iff_eq]
  constructor
  · intro h
    obtain ⟨b, hb, hname⟩ := h
    obtain ⟨-, m, -, hm⟩ := mem_wantedChain.mp hb
    have heq := sound.eq_of_name (follow_mem closed hs hm) (others_subset ht) hname
    exact ⟨m, heq ▸ hm⟩
  · intro h
    obtain ⟨n, hn⟩ := h
    obtain ⟨m, hm, hmt⟩ := follow_bounded closed hs hn
    exact ⟨target, mem_wantedChain.mpr ⟨sound.others_not_root _ ht, m, hm, hmt⟩, rfl⟩

theorem resolveParent_eq_ok_iff {c p : Registered} :
    r.resolveParent c = .ok p ↔
      r.find? c.wantedParent = some p ∧ p.isExtendable = true ∧ r.leadsTo p c = false := by
  rw [resolveParent]
  cases hp : r.find? c.wantedParent with
  | none => simp
  | some q =>
    cases he : q.isExtendable <;> cases hl : r.leadsTo q c <;> simp [he, hl]
    all_goals
      intro hq
      subst hq
      simp [he, hl]

theorem link_toRegistered (c : Registered) : (r.link c).value.toRegistered = c := by
  rw [link]
  cases r.resolveParent c <;> rfl

theorem link_parent_eq_some_iff {c : Registered} {n : String} :
    (r.link c).value.parent = some n ↔ ∃ p, r.resolveParent c = .ok p ∧ p.name = n := by
  rw [link]
  cases hp : r.resolveParent c with
  | ok p => simp
  | error problem => simp

theorem link_reports_eq_nil_iff {c : Registered} :
    (r.link c).reports = [] ↔ ∃ p, r.resolveParent c = .ok p := by
  rw [link]
  cases hp : r.resolveParent c with
  | ok p => simp
  | error problem => simp

end Registry

namespace Hierarchy

def names (h : Hierarchy) : List String := h.classes.map (·.name)

structure Linked (h : Hierarchy) : Prop where
  names_nodup : h.names.Nodup
  others_not_root : ∀ c ∈ h.others, c.isRoot = false
  parent_exists : ∀ c ∈ h.classes, ∀ n, c.parent = some n → ∃ p ∈ h.classes, p.name = n
  acyclic : ∀ c ∈ h.classes, ∀ n, follow h.parent? (n + 1) c ≠ some c

theorem root_mem (h : Hierarchy) : root ∈ h.classes := List.mem_cons_self

theorem find?_mem {h : Hierarchy} {n : String} {c : ClassNode} (hc : h.find? n = some c) :
    c ∈ h.classes :=
  List.mem_of_find?_eq_some hc

theorem parent?_mem {h : Hierarchy} {c p : ClassNode} (hp : h.parent? c = some p) :
    p ∈ h.classes := by
  obtain ⟨n, -, hn⟩ := Option.bind_eq_some_iff.mp hp
  exact find?_mem hn

theorem parent?_closed (h : Hierarchy) :
    ∀ a ∈ h.classes, ∀ b, h.parent? a = some b → b ∈ h.classes :=
  fun _ _ _ hab => parent?_mem hab

theorem parent?_root (h : Hierarchy) : h.parent? root = none := rfl

section OfRegistry

variable (r : Registry)

theorem ofRegistry_others :
    (ofRegistry r).value.others = r.others.map fun c => (r.link c).value := rfl

theorem ofRegistry_registered :
    (ofRegistry r).value.classes.map (·.toRegistered) = r.classes := by
  simp only [classes, ofRegistry_others, List.map_cons, List.map_map, Registry.classes]
  congr 1
  exact List.map_id'' (fun c => Registry.link_toRegistered c) r.others

theorem ofRegistry_names : (ofRegistry r).value.names = r.names := by
  rw [Registry.names, ← ofRegistry_registered, List.map_map]
  rfl

variable {r}

theorem ofRegistry_mem_registered {c : ClassNode} (hc : c ∈ (ofRegistry r).value.classes) :
    c.toRegistered ∈ r.classes := by
  rw [← ofRegistry_registered]
  exact List.mem_map_of_mem hc

theorem mem_ofRegistry_others {c : ClassNode} :
    c ∈ (ofRegistry r).value.others ↔ ∃ d ∈ r.others, (r.link d).value = c := by
  rw [ofRegistry_others, List.mem_map]

/-- A link leads to the declared parent, from where declared parents do not lead back. -/
theorem ofRegistry_link (sound : r.Sound) {c p : ClassNode}
    (hc : c ∈ (ofRegistry r).value.classes) (hp : (ofRegistry r).value.parent? c = some p) :
    r.wanted? c.toRegistered = some p.toRegistered ∧
      ∀ n, follow r.wanted? n p.toRegistered ≠ some c.toRegistered := by
  rcases List.mem_cons.mp hc with rfl | ho
  · rw [parent?_root] at hp
    cases hp
  obtain ⟨d, hd, rfl⟩ := mem_ofRegistry_others.mp ho
  obtain ⟨n, hn, hfind⟩ := Option.bind_eq_some_iff.mp hp
  obtain ⟨q, hq, hqn⟩ := Registry.link_parent_eq_some_iff.mp hn
  obtain ⟨hwant, -, hleads⟩ := Registry.resolveParent_eq_ok_iff.mp hq
  have hqmem : q ∈ r.classes := List.mem_of_find?_eq_some hwant
  have hpname : p.name = n := by simpa using List.find?_some hfind
  have hpq : p.toRegistered = q :=
    sound.eq_of_name (ofRegistry_mem_registered (find?_mem hfind)) hqmem (hpname.trans hqn.symm)
  rw [Registry.link_toRegistered, hpq]
  refine ⟨Registry.wanted?_eq_some_iff.mpr ⟨sound.others_not_root d hd, hwant⟩, ?_⟩
  intro m hm
  rw [(Registry.leadsTo_iff sound hqmem hd).mpr ⟨m, hm⟩] at hleads
  cases hleads

theorem ofRegistry_follow (sound : r.Sound) {n : Nat} {c b : ClassNode}
    (hc : c ∈ (ofRegistry r).value.classes)
    (hn : follow (ofRegistry r).value.parent? n c = some b) :
    follow r.wanted? n c.toRegistered = some b.toRegistered := by
  induction n generalizing c with
  | zero =>
    rw [follow_zero, Option.some.injEq] at hn
    rw [hn, follow_zero]
  | succ n ih =>
    obtain ⟨p, hp, hpb⟩ := Option.bind_eq_some_iff.mp (follow_succ n c ▸ hn)
    rw [follow_succ, (ofRegistry_link sound hc hp).1, Option.bind_some]
    exact ih (parent?_mem hp) hpb

theorem ofRegistry_linked (sound : r.Sound) : (ofRegistry r).value.Linked where
  names_nodup := by
    rw [ofRegistry_names]
    exact sound.names_nodup
  others_not_root := by
    intro c hc
    obtain ⟨d, hd, rfl⟩ := mem_ofRegistry_others.mp hc
    rw [Registry.link_toRegistered]
    exact sound.others_not_root d hd
  parent_exists := by
    intro c hc n hn
    rcases List.mem_cons.mp hc with rfl | ho
    · cases hn
    obtain ⟨d, hd, rfl⟩ := mem_ofRegistry_others.mp ho
    obtain ⟨q, hq, hqn⟩ := Registry.link_parent_eq_some_iff.mp hn
    have hqmem : q ∈ r.classes :=
      List.mem_of_find?_eq_some (Registry.resolveParent_eq_ok_iff.mp hq).1
    rw [← ofRegistry_registered] at hqmem
    obtain ⟨p, hp, rfl⟩ := List.mem_map.mp hqmem
    exact ⟨p, hp, hqn⟩
  acyclic := by
    intro c hc n hn
    obtain ⟨p, hp, hpc⟩ := Option.bind_eq_some_iff.mp (follow_succ n c ▸ hn)
    exact (ofRegistry_link sound hc hp).2 n (ofRegistry_follow sound (parent?_mem hp) hpc)

theorem ofRegistry_reports_eq_nil_iff :
    (ofRegistry r).reports = [] ↔ ∀ c ∈ r.others, ∃ p, r.resolveParent c = .ok p := by
  have hreports : (ofRegistry r).reports = r.others.flatMap fun c => (r.link c).reports := by
    simp [ofRegistry, Reported.forEach]
  simp only [hreports, List.flatMap_eq_nil_iff, Registry.link_reports_eq_nil_iff]

theorem ofRegistry_parent (quiet : (ofRegistry r).reports = []) {c : ClassNode}
    (hc : c ∈ (ofRegistry r).value.others) : c.parent ≠ none := by
  obtain ⟨d, hd, rfl⟩ := mem_ofRegistry_others.mp hc
  obtain ⟨p, hp⟩ := ofRegistry_reports_eq_nil_iff.mp quiet d hd
  rw [Registry.link_parent_eq_some_iff.mpr ⟨p, hp, rfl⟩]
  simp

end OfRegistry

abbrev ofProgram (program : Option Program) : Hierarchy :=
  (ofRegistry (Registry.ofProgram program).value).value

theorem ofProgram_linked (program : Option Program) : (ofProgram program).Linked :=
  ofRegistry_linked (Registry.ofProgram_sound program)

end Hierarchy

end ClassCheck
