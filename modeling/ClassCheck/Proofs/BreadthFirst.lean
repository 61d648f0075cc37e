import ClassCheck.Proofs.Ancestry

/-! The order of the classes. A class stands on level `d` of the tree below a class `t` if `d` links
lead from it to `t`; a tree is listed level by level, and every class belongs to one tree. The list
that grows by the children of its own members comes out in that order. -/

namespace ClassCheck.Hierarchy

/-- The classes of `front`, then their children, and so on for `n` levels. -/
def levels (h : Hierarchy) : Nat → List ClassNode → List ClassNode
  | 0, _ => []
  | n + 1, front => front ++ h.levels n (front.flatMap h.children)

def tops (h : Hierarchy) : List ClassNode := h.classes.filter (·.parent.isNone)

def depth (h : Hierarchy) (c : ClassNode) : Nat := (h.ancestors c).length

def SameTree (h : Hierarchy) (a b : ClassNode) : Prop :=
  ∃ t, t ∈ a :: h.ancestors a ∧ t ∈ b :: h.ancestors b

variable {h : Hierarchy}

theorem childLists_eq (cs : List ClassNode) (lists : String → List ClassNode) (name : String) :
    cs.foldl adopt lists name = lists name ++ cs.filter (·.parent == some name) := by
  induction cs generalizing lists with
  | nil => simp
  | cons c cs ih =>
    rw [List.foldl_cons, ih, adopt]
    cases hp : c.parent with
    | none => simp [hp]
    | some p =>
      by_cases hname : name = p
      · simp [hp, hname]
      · simp [hp, hname, Ne.symm hname]

theorem children_eq (h : Hierarchy) (c : ClassNode) :
    h.children c = h.classes.filter (·.parent == some c.name) := by
  rw [children, childLists, childLists_eq]
  rfl

theorem children_subset {p c : ClassNode} (hc : c ∈ h.children p) : c ∈ h.classes := by
  rw [children_eq] at hc
  exact List.mem_of_mem_filter hc

theorem flatMap_children_subset {front : List ClassNode} :
    ∀ t ∈ front.flatMap h.children, t ∈ h.classes := by
  intro t ht
  obtain ⟨p, -, hp⟩ := List.mem_flatMap.mp ht
  exact children_subset hp

theorem singleton_subset {t : ClassNode} (ht : t ∈ h.classes) : ∀ s ∈ [t], s ∈ h.classes := by
  intro s hs
  rw [List.mem_singleton.mp hs]
  exact ht

theorem levels_subset {n : Nat} {front : List ClassNode} (hf : ∀ t ∈ front, t ∈ h.classes)
    {c : ClassNode} (hc : c ∈ h.levels n front) : c ∈ h.classes := by
  induction n generalizing front with
  | zero => cases hc
  | succ n ih =>
    rw [levels, List.mem_append] at hc
    rcases hc with hc | hc
    · exact hf c hc
    · exact ih flatMap_children_subset hc

theorem levels_nil (h : Hierarchy) (n : Nat) : h.levels n [] = [] := by
  induction n with
  | zero => rfl
  | succ n ih => rw [levels, List.flatMap_nil, ih, List.append_nil]

theorem tops_eq : h.tops = root :: h.others.filter (·.parent.isNone) := rfl

theorem tops_subset {t : ClassNode} (ht : t ∈ h.tops) : t ∈ h.classes :=
  List.mem_of_mem_filter ht

theorem tops_parent? {t : ClassNode} (ht : t ∈ h.tops) : h.parent? t = none := by
  have hnone : t.parent = none := Option.isNone_iff_eq_none.mp (List.mem_filter.mp ht).2
  rw [parent?, hnone, Option.bind_none]

namespace Linked

variable (linked : h.Linked)
include linked

theorem mem_children {p c : ClassNode} (hp : p ∈ h.classes) :
    c ∈ h.children p ↔ c ∈ h.classes ∧ h.parent? c = some p := by
  rw [children_eq, List.mem_filter, linked.parent?_eq_some_iff, beq_iff_eq]
  constructor
  · intro hc
    exact ⟨hc.1, hp, hc.2⟩
  · intro hc
    exact ⟨hc.1, hc.2.2⟩

theorem children_nodup (p : ClassNode) : (h.children p).Nodup := by
  rw [children_eq]
  exact linked.classes_nodup.filter _

theorem mem_levels {n : Nat} {front : List ClassNode} (hf : ∀ t ∈ front, t ∈ h.classes)
    {c : ClassNode} (hc : c ∈ h.classes) :
    c ∈ h.levels n front ↔ ∃ d < n, ∃ t ∈ front, follow h.parent? d c = some t := by
  induction n generalizing front with
  | zero => simp [levels]
  | succ n ih =>
    rw [levels, List.mem_append, ih flatMap_children_subset]
    constructor
    · intro hcl
      rcases hcl with hcf | ⟨d, hd, t, ht, hdt⟩
      · exact ⟨0, Nat.succ_pos n, c, hcf, rfl⟩
      · obtain ⟨p, hp, htp⟩ := List.mem_flatMap.mp ht
        refine ⟨d + 1, Nat.succ_lt_succ hd, p, hp, ?_⟩
        rw [follow_succ_last, hdt]
        exact ((linked.mem_children (hf p hp)).mp htp).2
    · intro hcl
      obtain ⟨d, hd, p, hp, hdp⟩ := hcl
      cases d with
      | zero =>
        rw [follow_zero, Option.some.injEq] at hdp
        exact Or.inl (hdp ▸ hp)
      | succ d =>
        right
        rw [follow_succ_last] at hdp
        obtain ⟨t, ht, htp⟩ := Option.bind_eq_some_iff.mp hdp
        refine ⟨d, by omega, t, List.mem_flatMap.mpr ⟨p, hp, ?_⟩, ht⟩
        exact (linked.mem_children (hf p hp)).mpr ⟨follow_mem h.parent?_closed hc ht, htp⟩

theorem flatMap_children_nodup {front : List ClassNode} (hf : ∀ t ∈ front, t ∈ h.classes)
    (nodup : front.Nodup) : (front.flatMap h.children).Nodup := by
  rw [List.nodup_flatMap]
  refine ⟨fun p _ => linked.children_nodup p, ?_⟩
  refine List.Pairwise.imp_of_mem ?_ nodup
  intro p q hp hq hpq c hcp hcq
  have hcp' := ((linked.mem_children (hf p hp)).mp hcp).2
  have hcq' := ((linked.mem_children (hf q hq)).mp hcq).2
  exact hpq (Option.some.inj (hcp'.symm.trans hcq'))

/-- Levels do not overlap as long as no class of the first lies below another one of it. -/
theorem levels_nodup {n : Nat} {front : List ClassNode} (hf : ∀ t ∈ front, t ∈ h.classes)
    (nodup : front.Nodup)
    (flat : ∀ a ∈ front, ∀ b ∈ front, ∀ d, follow h.parent? (d + 1) a ≠ some b) :
    (h.levels n front).Nodup := by
  induction n generalizing front with
  | zero => exact List.nodup_nil
  | succ n ih =>
    have hparent : ∀ t ∈ front.flatMap h.children, ∃ p ∈ front, h.parent? t = some p := by
      intro t ht
      obtain ⟨p, hp, htp⟩ := List.mem_flatMap.mp ht
      exact ⟨p, hp, ((linked.mem_children (hf p hp)).mp htp).2⟩
    rw [levels, List.nodup_append]
    refine ⟨nodup, ih flatMap_children_subset (linked.flatMap_children_nodup hf nodup) ?_, ?_⟩
    · intro a ha b hb d hab
      obtain ⟨p, hp, hap⟩ := hparent a ha
      obtain ⟨q, hq, hbq⟩ := hparent b hb
      refine flat p hp q hq d ?_
      -- two classes of the next level, one below the other, have parents in the same position
      have hshift : follow h.parent? (d + 1 + 1) a = _ := follow_succ_last (d + 1) a
      rw [hab, Option.bind_some, hbq, follow_succ, hap, Option.bind_some] at hshift
      exact hshift
    · intro a ha c hc hac
      subst hac
      obtain ⟨d, -, t, ht, hdt⟩ := (linked.mem_levels flatMap_children_subset
        (levels_subset flatMap_children_subset hc)).mp hc
      obtain ⟨p, hp, htp⟩ := hparent t ht
      refine flat a ha p hp d ?_
      rw [follow_succ_last, hdt, Option.bind_some, htp]

theorem depth_child {c p : ClassNode} (hc : c ∈ h.classes) (hp : h.parent? c = some p) :
    h.depth c = h.depth p + 1 := by
  rw [depth, linked.ancestors_child hc hp, List.length_cons, depth]

theorem depth_follow {n : Nat} {c t : ClassNode} (hc : c ∈ h.classes)
    (hn : follow h.parent? n c = some t) : h.depth c = h.depth t + n := by
  induction n generalizing c with
  | zero =>
    rw [follow_zero, Option.some.injEq] at hn
    rw [hn, Nat.add_zero]
  | succ n ih =>
    obtain ⟨p, hp, hpt⟩ := Option.bind_eq_some_iff.mp (follow_succ n c ▸ hn)
    have hpd := ih (parent?_mem hp) hpt
    have hcd := linked.depth_child hc hp
    omega

theorem levels_depth {n k : Nat} {front : List ClassNode} (hf : ∀ t ∈ front, t ∈ h.classes)
    (hk : ∀ t ∈ front, h.depth t = k) :
    (h.levels n front).Pairwise fun a b => h.depth a ≤ h.depth b := by
  induction n generalizing front k with
  | zero => exact List.Pairwise.nil
  | succ n ih =>
    have hdeeper : ∀ t ∈ front.flatMap h.children, h.depth t = k + 1 := by
      intro t ht
      obtain ⟨p, hp, htp⟩ := List.mem_flatMap.mp ht
      obtain ⟨htc, hpar⟩ := (linked.mem_children (hf p hp)).mp htp
      rw [linked.depth_child htc hpar, hk p hp]
    rw [levels, List.pairwise_append]
    refine ⟨?_, ih flatMap_children_subset hdeeper, ?_⟩
    · apply List.pairwise_of_forall_mem_list
      intro a ha b hb
      have hak := hk a ha
      have hbk := hk b hb
      omega
    · intro a ha c hc
      have hcc := levels_subset flatMap_children_subset hc
      obtain ⟨d, -, t, ht, hdt⟩ := (linked.mem_levels flatMap_children_subset hcc).mp hc
      have hcd := linked.depth_follow hcc hdt
      rw [hk a ha]
      rw [hdeeper t ht] at hcd
      omega

theorem mem_tree {top c : ClassNode} (ht : top ∈ h.classes) (hc : c ∈ h.classes) :
    c ∈ h.levels h.size [top] ↔ top ∈ c :: h.ancestors c := by
  rw [linked.mem_levels (singleton_subset ht) hc, linked.mem_upward hc]
  constructor
  · intro hex
    obtain ⟨d, -, t, htop, hdt⟩ := hex
    rw [List.mem_singleton.mp htop] at hdt
    exact ⟨d, hdt⟩
  · intro hex
    obtain ⟨d, hdt⟩ := hex
    refine ⟨d, ?_, top, List.mem_singleton_self top, hdt⟩
    by_contra hlt
    rw [follow_none_mono (linked.chain_ends hc) (by omega)] at hdt
    cases hdt

theorem top_of_sameTree {a b s t : ClassNode} (ha : a ∈ h.classes) (hb : b ∈ h.classes)
    (hs : s ∈ a :: h.ancestors a) (hsp : h.parent? s = none)
    (ht : t ∈ b :: h.ancestors b) (htp : h.parent? t = none) (hab : h.SameTree a b) : s = t := by
  obtain ⟨u, hua, hub⟩ := hab
  obtain ⟨i, hi⟩ := (linked.mem_upward ha).mp hs
  obtain ⟨j, hj⟩ := (linked.mem_upward hb).mp ht
  obtain ⟨m, hm⟩ := (linked.mem_upward ha).mp hua
  obtain ⟨n, hn⟩ := (linked.mem_upward hb).mp hub
  have hus : follow h.parent? (i - m) u = some s := by
    have hsplit : follow h.parent? (m + (i - m)) a = (follow h.parent? m a).bind _ :=
      follow_add m (i - m) a
    rwa [Nat.add_sub_cancel' (top_le hi hsp hm), hi, hm, Option.bind_some, eq_comm] at hsplit
  have hut : follow h.parent? (j - n) u = some t := by
    have hsplit : follow h.parent? (n + (j - n)) b = (follow h.parent? n b).bind _ :=
      follow_add n (j - n) b
    rwa [Nat.add_sub_cancel' (top_le hj htp hn), hj, hn, Option.bind_some, eq_comm] at hsplit
  exact (top_unique hus hsp hut htp).2

theorem levels_stable {n : Nat} {front : List ClassNode} (hf : ∀ t ∈ front, t ∈ h.classes)
    (hends : ∀ c ∈ h.classes, ∀ t ∈ front, follow h.parent? n c ≠ some t) :
    h.levels (n + 1) front = h.levels n front := by
  induction n generalizing front with
  | zero =>
    cases front with
    | nil => rfl
    | cons t front =>
      have ht : t ∈ t :: front := List.mem_cons_self
      exact absurd rfl (hends t (hf t ht) t ht)
  | succ n ih =>
    change front ++ h.levels (n + 1) (front.flatMap h.children) =
      front ++ h.levels n (front.flatMap h.children)
    rw [ih flatMap_children_subset]
    intro c hc t ht hct
    obtain ⟨p, hp, htp⟩ := List.mem_flatMap.mp ht
    refine hends c hc p hp ?_
    rw [follow_succ_last, hct]
    exact ((linked.mem_children (hf p hp)).mp htp).2

/-! ### The growing list -/

omit linked in
theorem spread_level (h : Hierarchy) (done front next : List ClassNode) (n : Nat) :
    h.spread (front.length + n) done.length (done ++ front ++ next) =
      h.spread n (done ++ front).length (done ++ front ++ next ++ front.flatMap h.children) := by
  induction front generalizing done next with
  | nil => simp
  | cons c front ih =>
    have hc : (done ++ c :: front ++ next)[done.length]? = some c := by simp
    have hshift : done ++ c :: front = (done ++ [c]) ++ front := by simp
    rw [List.length_cons, Nat.add_right_comm, spread, hc, hshift]
    simp only
    rw [← List.length_singleton, ← List.length_append, List.append_assoc (_ ++ front),
      ih (done ++ [c]) (next ++ h.children c)]
    simp

omit linked in
/-- If there is nothing beyond `k` levels, the list grows by these levels and then ends. -/
theorem spread_levels {k n : Nat} {front : List ClassNode}
    (hends : h.levels (k + 1) front = h.levels k front) (hn : (h.levels k front).length ≤ n)
    (done : List ClassNode) :
    h.spread n done.length (done ++ front) = done ++ h.levels k front := by
  induction k generalizing n front done with
  | zero =>
    obtain rfl : front = [] := by simpa [levels] using hends
    cases n with
    | zero => rfl
    | succ n => simp [spread, levels]
  | succ k ih =>
    have hends := List.append_cancel_left hends
    rw [levels, List.length_append] at hn
    obtain ⟨m, rfl⟩ : ∃ m, n = front.length + m := ⟨n - front.length, by omega⟩
    have hlevel := spread_level h done front [] m
    rw [List.append_nil] at hlevel
    rw [hlevel, ih hends (by omega), levels, List.append_assoc]

theorem tree_nodup {t : ClassNode} (ht : t ∈ h.tops) : (h.levels h.size [t]).Nodup := by
  refine linked.levels_nodup (singleton_subset (tops_subset ht)) (List.nodup_singleton t) ?_
  intro a ha b hb d hab
  rw [List.mem_singleton.mp ha, follow_succ, tops_parent? ht, Option.bind_none] at hab
  cases hab

theorem tree_stable {t : ClassNode} (ht : t ∈ h.classes) :
    h.levels (h.size + 1) [t] = h.levels h.size [t] := by
  refine linked.levels_stable (singleton_subset ht) fun c hc s _ hcs => ?_
  rw [linked.chain_ends hc] at hcs
  cases hcs

theorem appendTree_top {t : ClassNode} (ht : t ∈ h.tops) (list : List ClassNode) :
    h.appendTree list t = list ++ h.levels h.size [t] := by
  have hsubset : h.levels h.size [t] ⊆ h.classes :=
    fun c hc => levels_subset (singleton_subset (tops_subset ht)) hc
  have hlength : (h.levels h.size [t]).length ≤ h.size :=
    ((linked.tree_nodup ht).subperm hsubset).length_le
  have htop : t.parent.isSome = false := by
    rw [← Option.not_isNone, (List.mem_filter.mp ht).2]
    rfl
  rw [appendTree, htop]
  exact spread_levels (linked.tree_stable (tops_subset ht)) hlength list

/-- The growing list comes out tree by tree, and each tree level by level. -/
theorem order_eq : h.order = h.tops.flatMap fun top => h.levels h.size [top] := by
  have hfold : ∀ cs ⊆ h.classes, ∀ list, cs.foldl h.appendTree list =
      list ++ (cs.filter (·.parent.isNone)).flatMap fun top => h.levels h.size [top] := by
    intro cs
    induction cs with
    | nil => simp
    | cons c cs ih =>
      intro hcs list
      have hrest := ih fun d hd => hcs (List.mem_cons_of_mem c hd)
      rw [List.foldl_cons, hrest]
      cases hp : c.parent with
      | some p => simp [appendTree, hp]
      | none =>
        have htop : c ∈ h.tops := List.mem_filter.mpr ⟨hcs List.mem_cons_self, by rw [hp]; rfl⟩
        simp [linked.appendTree_top htop, hp]
  exact hfold h.classes (List.Subset.refl _) []

theorem mem_order {c : ClassNode} : c ∈ h.order ↔ c ∈ h.classes := by
  rw [linked.order_eq, List.mem_flatMap]
  constructor
  · intro hex
    obtain ⟨t, ht, hct⟩ := hex
    exact levels_subset (singleton_subset (tops_subset ht)) hct
  · intro hc
    obtain ⟨m, t, -, hmt, ht⟩ := exists_top (linked.chain_ends hc)
    have htc := follow_mem h.parent?_closed hc hmt
    refine ⟨t, List.mem_filter.mpr ⟨htc, ?_⟩, ?_⟩
    · rw [(linked.parent?_eq_none_iff htc).mp ht]
      rfl
    · exact (linked.mem_tree htc hc).mpr ((linked.mem_upward hc).mpr ⟨m, hmt⟩)

theorem top_of_mem_tree {t c : ClassNode} (ht : t ∈ h.tops) (hc : c ∈ h.levels h.size [t]) :
    c ∈ h.classes ∧ t ∈ c :: h.ancestors c := by
  have hcc : c ∈ h.classes := by
    apply linked.mem_order.mp
    rw [linked.order_eq, List.mem_flatMap]
    exact ⟨t, ht, hc⟩
  exact ⟨hcc, (linked.mem_tree (tops_subset ht) hcc).mp hc⟩

theorem tops_nodup : h.tops.Nodup := linked.classes_nodup.filter _

theorem order_nodup : h.order.Nodup := by
  rw [linked.order_eq, List.nodup_flatMap]
  constructor
  · exact fun t ht => linked.tree_nodup ht
  · refine List.Pairwise.imp_of_mem ?_ linked.tops_nodup
    intro s t hs ht hst c hcs hct
    obtain ⟨hc, hsc⟩ := linked.top_of_mem_tree hs hcs
    obtain ⟨-, htc⟩ := linked.top_of_mem_tree ht hct
    have hself : h.SameTree c c := ⟨c, List.mem_cons_self, List.mem_cons_self⟩
    exact hst (linked.top_of_sameTree hc hc hsc (tops_parent? hs) htc (tops_parent? ht) hself)

theorem order_perm : h.order.Perm h.classes :=
  (List.perm_ext_iff_of_nodup linked.order_nodup linked.classes_nodup).mpr fun _ => linked.mem_order

theorem order_depth : h.order.Pairwise fun a b => h.SameTree a b → h.depth a ≤ h.depth b := by
  rw [linked.order_eq, List.pairwise_flatMap]
  constructor
  · intro t ht
    have hdepth : ∀ s ∈ [t], h.depth s = h.depth t := by
      intro s hs
      rw [List.mem_singleton.mp hs]
    refine List.Pairwise.imp ?_ (linked.levels_depth (singleton_subset (tops_subset ht)) hdepth)
    intro a b hab _
    exact hab
  · refine List.Pairwise.imp_of_mem ?_ linked.tops_nodup
    intro s t hs ht hst a ha b hb hab
    obtain ⟨hac, hsa⟩ := linked.top_of_mem_tree hs ha
    obtain ⟨hbc, htb⟩ := linked.top_of_mem_tree ht hb
    have heq := linked.top_of_sameTree hac hbc hsa (tops_parent? hs) htb (tops_parent? ht) hab
    exact absurd heq hst

theorem order_parent_first {before after : List ClassNode} {c p : ClassNode}
    (ho : h.order = before ++ c :: after) (hp : h.parent? c = some p) : p ∈ before := by
  have hc : c ∈ h.classes := linked.mem_order.mp (by rw [ho]; simp)
  have hpo : p ∈ h.order := linked.mem_order.mpr (parent?_mem hp)
  have hdepth := linked.depth_child hc hp
  have hsame : h.SameTree c p := by
    refine ⟨p, ?_, List.mem_cons_self⟩
    rw [linked.ancestors_child hc hp]
    exact List.mem_cons_of_mem _ List.mem_cons_self
  rw [ho, List.mem_append, List.mem_cons] at hpo
  rcases hpo with hpb | rfl | hpa
  · exact hpb
  · omega
  · have hpairs := linked.order_depth
    rw [ho, List.pairwise_append, List.pairwise_cons] at hpairs
    have hle := hpairs.2.1.1 p hpa hsame
    omega

theorem order_root_tree : ∃ rest, h.order = h.levels h.size [root] ++ rest ∧
    ∀ c ∈ rest, root ∉ c :: h.ancestors c := by
  refine ⟨_, by rw [linked.order_eq, tops_eq, List.flatMap_cons], ?_⟩
  intro c hc hroot
  obtain ⟨t, ht, hct⟩ := List.mem_flatMap.mp hc
  have hto : t ∈ h.tops := by
    rw [tops_eq]
    exact List.mem_cons_of_mem _ ht
  obtain ⟨hcc, htc⟩ := linked.top_of_mem_tree hto hct
  have hself : h.SameTree c c := ⟨c, List.mem_cons_self, List.mem_cons_self⟩
  have heq : t = root :=
    linked.top_of_sameTree hcc hcc htc (tops_parent? hto) hroot h.parent?_root hself
  have hnr := linked.others_not_root t (List.mem_of_mem_filter ht)
  rw [heq] at hnr
  cases hnr

theorem order_head : h.order.head? = some root := by
  have hsize : h.size = h.others.length + 1 := rfl
  rw [linked.order_eq, tops_eq, List.flatMap_cons, hsize, levels]
  rfl

end Linked

end ClassCheck.Hierarchy
