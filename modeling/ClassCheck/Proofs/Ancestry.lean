import ClassCheck.Proofs.Inheritance
import ClassCheck.Proofs.Links

/-! Ancestors in a linked hierarchy. The bound on the search is never met, so the ancestors of a
class are its parent and the ancestors of its parent. -/

namespace ClassCheck.Hierarchy

variable {h : Hierarchy}

theorem mem_ancestorsWithin {n : Nat} {c b : ClassNode} :
    b ∈ h.ancestorsWithin n c ↔ ∃ m < n, follow h.parent? (m + 1) c = some b := by
  induction n generalizing c with
  | zero => simp [ancestorsWithin]
  | succ n ih =>
    rw [ancestorsWithin]
    cases hp : h.parent? c with
    | none => simp [follow_succ, hp]
    | some p =>
      simp only [List.mem_cons, ih]
      constructor
      · intro hb
        rcases hb with rfl | ⟨m, hm, hmb⟩
        · exact ⟨0, Nat.succ_pos n, by simp [follow_succ, hp]⟩
        · exact ⟨m + 1, Nat.succ_lt_succ hm, by rw [follow_succ, hp, Option.bind_some, hmb]⟩
      · intro hb
        obtain ⟨m, hm, hmb⟩ := hb
        rw [follow_succ, hp, Option.bind_some] at hmb
        cases m with
        | zero =>
          rw [follow_zero, Option.some.injEq] at hmb
          exact Or.inl hmb.symm
        | succ m => exact Or.inr ⟨m, by omega, hmb⟩

theorem ancestorsWithin_stable {n m : Nat} {c : ClassNode} (hn : follow h.parent? n c = none)
    (hnm : n ≤ m) : h.ancestorsWithin m c = h.ancestorsWithin n c := by
  induction n generalizing m c with
  | zero => cases hn
  | succ n ih =>
    obtain ⟨k, rfl⟩ : ∃ k, m = k + 1 := ⟨m - 1, by omega⟩
    rw [ancestorsWithin, ancestorsWithin]
    cases hp : h.parent? c with
    | none => rfl
    | some p =>
      rw [follow_succ, hp, Option.bind_some] at hn
      exact congrArg (p :: ·) (ih hn (by omega))

theorem exists_top {n : Nat} {c : ClassNode} (hn : follow h.parent? n c = none) :
    ∃ m t, m < n ∧ follow h.parent? m c = some t ∧ h.parent? t = none := by
  induction n generalizing c with
  | zero => cases hn
  | succ n ih =>
    cases hp : h.parent? c with
    | none => exact ⟨0, c, Nat.succ_pos n, rfl, hp⟩
    | some p =>
      rw [follow_succ, hp, Option.bind_some] at hn
      obtain ⟨m, t, hm, hmt, ht⟩ := ih hn
      exact ⟨m + 1, t, Nat.succ_lt_succ hm, by rw [follow_succ, hp, Option.bind_some, hmt], ht⟩

theorem ancestors_top {c : ClassNode} (hp : h.parent? c = none) : h.ancestors c = [] := by
  have hsize : h.size = h.others.length + 1 := rfl
  rw [ancestors, hsize, ancestorsWithin, hp]

theorem sources_root : h.sources root = [] := by
  rw [sources, ancestors_top h.parent?_root]
  rfl

theorem sources_top {c : ClassNode} (hp : h.parent? c = none) (hroot : c.isRoot = false) :
    h.sources c = [root] := by
  rw [sources, ancestors_top hp]
  simp [hroot]

theorem tableParent?_eq {c p : ClassNode} (hp : h.tableParent? c = some p) :
    (h.parent? c).getD root = p := by
  rw [tableParent?] at hp
  split at hp
  · cases hp
  · exact Option.some.inj hp

theorem tableParent?_mem {c p : ClassNode} (hp : h.tableParent? c = some p) : p ∈ h.classes := by
  rw [← tableParent?_eq hp]
  cases hq : h.parent? c with
  | none => exact h.root_mem
  | some q => exact parent?_mem hq

theorem top_le {c t t' : ClassNode} {m m' : Nat} (hm : follow h.parent? m c = some t)
    (ht : h.parent? t = none) (hm' : follow h.parent? m' c = some t') : m' ≤ m := by
  by_contra hlt
  obtain ⟨k, rfl⟩ : ∃ k, m' = m + (k + 1) := ⟨m' - m - 1, by omega⟩
  rw [follow_add, hm, Option.bind_some, follow_succ, ht, Option.bind_none] at hm'
  cases hm'

theorem top_unique {c t t' : ClassNode} {m m' : Nat} (hm : follow h.parent? m c = some t)
    (ht : h.parent? t = none) (hm' : follow h.parent? m' c = some t') (ht' : h.parent? t' = none) :
    m = m' ∧ t = t' := by
  have hmm : m = m' := Nat.le_antisymm (top_le hm' ht' hm) (top_le hm ht hm')
  subst hmm
  exact ⟨rfl, Option.some.inj (hm.symm.trans hm')⟩

namespace Linked

variable (linked : h.Linked)
include linked

theorem find?_eq_some_iff {n : String} {c : ClassNode} :
    h.find? n = some c ↔ c ∈ h.classes ∧ c.name = n :=
  find?_name_eq_some_iff linked.names_nodup

theorem eq_of_name {c d : ClassNode} (hc : c ∈ h.classes) (hd : d ∈ h.classes)
    (hcd : c.name = d.name) : c = d :=
  List.inj_on_of_nodup_map linked.names_nodup hc hd hcd

theorem classes_nodup : h.classes.Nodup := List.Nodup.of_map _ linked.names_nodup

theorem isRoot_iff {c : ClassNode} (hc : c ∈ h.classes) : c.isRoot = true ↔ c = root := by
  constructor
  · intro hr
    rcases List.mem_cons.mp hc with rfl | ho
    · rfl
    · rw [linked.others_not_root c ho] at hr
      cases hr
  · intro hr
    rw [hr]
    rfl

theorem parent?_eq_some_iff {c p : ClassNode} :
    h.parent? c = some p ↔ p ∈ h.classes ∧ c.parent = some p.name := by
  constructor
  · intro hp
    obtain ⟨n, hn, hfind⟩ := Option.bind_eq_some_iff.mp hp
    obtain ⟨hmem, rfl⟩ := linked.find?_eq_some_iff.mp hfind
    exact ⟨hmem, hn⟩
  · intro hp
    rw [parent?, hp.2, Option.bind_some]
    exact linked.find?_eq_some_iff.mpr ⟨hp.1, rfl⟩

theorem parent?_eq_none_iff {c : ClassNode} (hc : c ∈ h.classes) :
    h.parent? c = none ↔ c.parent = none := by
  constructor
  · intro hp
    cases hn : c.parent with
    | none => rfl
    | some n =>
      obtain ⟨p, hmem, rfl⟩ := linked.parent_exists c hc n hn
      rw [linked.parent?_eq_some_iff.mpr ⟨hmem, hn⟩] at hp
      cases hp
  · intro hp
    rw [parent?, hp, Option.bind_none]

theorem chain_ends {c : ClassNode} (hc : c ∈ h.classes) : follow h.parent? h.size c = none :=
  follow_ends h.parent?_closed linked.acyclic hc

@[elab_as_elim]
theorem parent_induction {motive : ClassNode → Prop}
    (step : ∀ c ∈ h.classes, (∀ q, h.parent? c = some q → motive q) → motive c)
    {c : ClassNode} (hc : c ∈ h.classes) : motive c := by
  have hends := linked.chain_ends hc
  generalize h.size = n at hends
  induction n generalizing c with
  | zero => cases hends
  | succ n ih =>
    refine step c hc ?_
    intro q hq
    refine ih (parent?_mem hq) ?_
    rw [follow_succ, hq] at hends
    exact hends

theorem ancestors_child {c p : ClassNode} (hc : c ∈ h.classes) (hp : h.parent? c = some p) :
    h.ancestors c = p :: h.ancestors p := by
  have hends : follow h.parent? h.others.length p = none := by
    have hall := linked.chain_ends hc
    rwa [show h.size = h.others.length + 1 from rfl, follow_succ, hp, Option.bind_some] at hall
  have hstable : h.ancestorsWithin h.size p = h.ancestorsWithin h.others.length p :=
    ancestorsWithin_stable hends (Nat.le_succ _)
  calc h.ancestors c = p :: h.ancestorsWithin h.others.length p := by
        rw [ancestors, show h.size = h.others.length + 1 from rfl, ancestorsWithin, hp]
    _ = p :: h.ancestors p := by
        rw [ancestors, hstable]

theorem mem_ancestors {c b : ClassNode} (hc : c ∈ h.classes) :
    b ∈ h.ancestors c ↔ ∃ n, follow h.parent? (n + 1) c = some b := by
  rw [ancestors, mem_ancestorsWithin]
  constructor
  · intro hb
    obtain ⟨m, -, hm⟩ := hb
    exact ⟨m, hm⟩
  · intro hb
    obtain ⟨n, hn⟩ := hb
    refine ⟨n, ?_, hn⟩
    by_contra hlt
    rw [follow_none_mono (linked.chain_ends hc) (by omega)] at hn
    cases hn

theorem mem_upward {c b : ClassNode} (hc : c ∈ h.classes) :
    b ∈ c :: h.ancestors c ↔ ∃ n, follow h.parent? n c = some b := by
  rw [List.mem_cons, linked.mem_ancestors hc]
  constructor
  · intro hb
    rcases hb with rfl | ⟨n, hn⟩
    · exact ⟨0, rfl⟩
    · exact ⟨n + 1, hn⟩
  · intro hb
    obtain ⟨n, hn⟩ := hb
    cases n with
    | zero => exact Or.inl (Option.some.inj hn).symm
    | succ n => exact Or.inr ⟨n, hn⟩

theorem descendsFrom_iff {c d : ClassNode} (hc : c ∈ h.classes) (hd : d ∈ h.classes) :
    (h.classInfo c).descendsFrom (h.classInfo d) = true ↔
      ∃ n, follow h.parent? n c = some d := by
  rw [← linked.mem_upward hc]
  refine List.any_eq_true.trans ?_
  constructor
  · intro hdesc
    obtain ⟨b, hb, hname⟩ := hdesc
    obtain ⟨n, hn⟩ := (linked.mem_upward hc).mp hb
    have hmem := follow_mem h.parent?_closed hc hn
    rwa [← linked.eq_of_name hmem hd (beq_iff_eq.mp hname)]
  · intro hup
    exact ⟨d, hup, beq_self_eq_true _⟩

theorem sources_child {c p : ClassNode} (hc : c ∈ h.classes) (hp : h.parent? c = some p) :
    h.sources c = p :: h.sources p := by
  have hroot : c.isRoot = false := by
    cases hr : c.isRoot with
    | false => rfl
    | true =>
      rw [(linked.isRoot_iff hc).mp hr, parent?_root] at hp
      cases hp
  have hany : (c :: p :: h.ancestors p).any (·.isRoot) = (p :: h.ancestors p).any (·.isRoot) := by
    rw [List.any_cons, hroot, Bool.false_or]
  simp only [sources, linked.ancestors_child hc hp, hany]
  split <;> rfl

theorem sources_subset {c : ClassNode} (hc : c ∈ h.classes) :
    c :: h.sources c ⊆ h.classes := by
  have hup : ∀ d ∈ c :: h.ancestors c, d ∈ h.classes := by
    intro d hd
    obtain ⟨n, hn⟩ := (linked.mem_upward hc).mp hd
    exact follow_mem h.parent?_closed hc hn
  intro d hd
  rw [sources] at hd
  split at hd
  · exact hup d hd
  · rcases List.mem_append.mp (List.cons_append ▸ hd) with hd | hd
    · exact hup d hd
    · exact List.mem_singleton.mp hd ▸ h.root_mem

theorem sources_eq {c : ClassNode} (hc : c ∈ h.classes) :
    h.sources c = ((h.tableParent? c).map fun p => p :: h.sources p).getD [] := by
  rw [tableParent?]
  cases hroot : c.isRoot with
  | true =>
    rw [(linked.isRoot_iff hc).mp hroot]
    exact sources_root
  | false =>
    cases hp : h.parent? c with
    | some p => simpa using linked.sources_child hc hp
    | none => simpa [sources_root] using sources_top hp hroot

@[elab_as_elim]
theorem source_induction {motive : ClassNode → Prop}
    (step : ∀ c ∈ h.classes, (∀ p, h.tableParent? c = some p → motive p) → motive c)
    {c : ClassNode} (hc : c ∈ h.classes) : motive c := by
  have hroot : motive root := by
    refine step root h.root_mem fun p hp => ?_
    cases hp
  refine linked.parent_induction (fun c hc ih => step c hc fun p hp => ?_) hc
  rw [← tableParent?_eq hp]
  cases hq : h.parent? c with
  | none => exact hroot
  | some q => exact ih q hq

theorem upward_nodup {c : ClassNode} (hc : c ∈ h.classes) : (c :: h.ancestors c).Nodup := by
  refine linked.parent_induction (fun c hc ih => ?_) hc
  refine List.nodup_cons.mpr ⟨fun hself => ?_, ?_⟩
  · obtain ⟨n, hn⟩ := (linked.mem_ancestors hc).mp hself
    exact linked.acyclic c hc n hn
  · cases hp : h.parent? c with
    | none =>
      rw [ancestors_top hp]
      exact List.nodup_nil
    | some p =>
      rw [linked.ancestors_child hc hp]
      exact ih p hp

theorem sources_nodup {c : ClassNode} (hc : c ∈ h.classes) : (c :: h.sources c).Nodup := by
  have hup := linked.upward_nodup hc
  rw [sources]
  split
  · exact hup
  · rename_i hroot
    rw [← List.cons_append, List.nodup_append]
    refine ⟨hup, List.nodup_singleton root, fun a ha b hb hab => hroot ?_⟩
    rw [hab, List.mem_singleton.mp hb] at ha
    exact List.any_eq_true.mpr ⟨root, ha, rfl⟩

theorem sources_length {c : ClassNode} (hc : c ∈ h.classes) :
    (c :: h.sources c).length ≤ h.size :=
  ((linked.sources_nodup hc).subperm (linked.sources_subset hc)).length_le

end Linked

end ClassCheck.Hierarchy
