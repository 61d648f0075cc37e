import ClassCheck.Proofs.Chains
import ClassCheck.Scope.Forest

/-!
# The nearest binding is found

A search starts in a table and goes on through its parents. It ends at the first table that binds
the name in one of its scopes, even if it binds the name to nothing. So a new binding in a table is
found from exactly those tables from which the search gets there, and nothing else changes.
-/

namespace ClassCheck

theorem ScopeStack.find?_eq_none_iff {α : Type} {t : ScopeStack α} {name : String} :
    t.find? name = none ↔ ∀ scope ∈ t.scopes, name ∉ scope.map Prod.fst := by
  rw [find?, List.findSome?_eq_none_iff]
  refine forall₂_congr fun scope _ => ?_
  simp only [List.lookup_eq_none_iff, bne_iff_ne, List.mem_map, not_exists, not_and]
  exact forall₂_congr fun _ _ => ne_comm

namespace Forest

variable {α : Type}

def own? (f : Forest α) (i : Nat) (name : String) : Option α :=
  f.tables[i]?.bind (·.stack.find? name)

def Binds (f : Forest α) (i : Nat) (name : String) : Prop :=
  ∃ t ∈ f.tables[i]?, ∃ scope ∈ t.stack.scopes, name ∈ scope.map Prod.fst

/-- Parents lead from `u` to `v`, and no table before `v` on the way binds the name. -/
def Exposes (f : Forest α) (name : String) (u v : Nat) : Prop :=
  ∃ k, follow f.parent? k u = some v ∧
    ∀ j < k, ∀ w, follow f.parent? j u = some w → ¬ f.Binds w name

variable {f : Forest α} {name : String} {u v : Nat}

theorem not_binds_iff : ¬ f.Binds v name ↔ f.own? v name = none := by
  rw [own?, Option.bind_eq_none_iff]
  simp only [Binds, Option.mem_def, not_exists, not_and, ScopeStack.find?_eq_none_iff]

theorem lt_size_of_parent? (h : f.parent? u = some v) : u < f.size := by
  obtain ⟨t, ht, -⟩ := Option.bind_eq_some_iff.mp h
  exact (List.getElem?_eq_some_iff.mp ht).1

theorem lt_size_of_own? {a : α} (h : f.own? u name = some a) : u < f.size := by
  obtain ⟨t, ht, -⟩ := Option.bind_eq_some_iff.mp h
  exact (List.getElem?_eq_some_iff.mp ht).1

/-! ### What a search finds -/

theorem lookup_chainWithin_succ (f : Forest α) (n u : Nat) (name : String) :
    ScopeStack.lookup (f.chainWithin (n + 1) u) name =
      (f.own? u name).or
        ((f.parent? u).bind fun p => ScopeStack.lookup (f.chainWithin n p) name) := by
  rw [chainWithin, own?, parent?]
  cases f.tables[u]? with
  | none => rfl
  | some t =>
    change (t.stack :: _).findSome? _ = (t.stack.find? name).or (t.parent.bind _)
    rw [List.findSome?_cons]
    cases t.stack.find? name with
    | some a => rfl
    | none => cases t.parent <;> rfl

/-- The table after `k` steps has the first binding on the way. -/
def FirstAt (f : Forest α) (name : String) (u k v : Nat) : Prop :=
  follow f.parent? k u = some v ∧
    ∀ j < k, ∀ w, follow f.parent? j u = some w → f.own? w name = none

theorem exposes_iff : f.Exposes name u v ↔ ∃ k, f.FirstAt name u k v := by
  simp only [Exposes, FirstAt, not_binds_iff]

theorem firstAt_zero : f.FirstAt name u 0 v ↔ u = v := by
  simp [FirstAt]

theorem firstAt_succ {k : Nat} :
    f.FirstAt name u (k + 1) v ↔
      f.own? u name = none ∧ ∃ p, f.parent? u = some p ∧ f.FirstAt name p k v := by
  constructor
  · rintro ⟨hv, hfree⟩
    obtain ⟨p, hp, hpv⟩ := Option.bind_eq_some_iff.mp hv
    refine ⟨hfree 0 (Nat.succ_pos k) u rfl, p, hp, hpv, ?_⟩
    intro j hj w hw
    exact hfree (j + 1) (Nat.succ_lt_succ hj) w (by rw [follow_succ, hp, Option.bind_some, hw])
  · rintro ⟨hu, p, hp, hpv, hfree⟩
    refine ⟨by rw [follow_succ, hp, Option.bind_some, hpv], ?_⟩
    intro j hj w hw
    cases j with
    | zero =>
      rw [← Option.some.inj hw]
      exact hu
    | succ j =>
      rw [follow_succ, hp, Option.bind_some] at hw
      exact hfree j (Nat.lt_of_succ_lt_succ hj) w hw

theorem lookup_chainWithin_iff {n : Nat} {a : α} :
    ScopeStack.lookup (f.chainWithin n u) name = some a ↔
      ∃ k < n, ∃ v, f.FirstAt name u k v ∧ f.own? v name = some a := by
  induction n generalizing u with
  | zero => simp [chainWithin, ScopeStack.lookup]
  | succ n ih =>
    rw [lookup_chainWithin_succ]
    cases hu : f.own? u name with
    | some b =>
      -- the search ends here, and nothing further on comes first
      constructor
      · intro hb
        exact ⟨0, Nat.succ_pos n, u, firstAt_zero.mpr rfl, hu.trans hb⟩
      · rintro ⟨k, -, v, hfirst, hv⟩
        cases k with
        | zero =>
          rw [firstAt_zero.mp hfirst] at hu
          exact hu.symm.trans hv
        | succ k =>
          have hnone := (firstAt_succ.mp hfirst).1
          rw [hu] at hnone
          cases hnone
    | none =>
      rw [Option.none_or, Option.bind_eq_some_iff]
      constructor
      · rintro ⟨p, hp, hlookup⟩
        obtain ⟨k, hk, v, hfirst, hv⟩ := ih.mp hlookup
        exact ⟨k + 1, Nat.succ_lt_succ hk, v, firstAt_succ.mpr ⟨hu, p, hp, hfirst⟩, hv⟩
      · rintro ⟨k, hk, v, hfirst, hv⟩
        cases k with
        | zero =>
          rw [← firstAt_zero.mp hfirst, hu] at hv
          cases hv
        | succ k =>
          obtain ⟨-, p, hp, hfirst⟩ := firstAt_succ.mp hfirst
          exact ⟨p, hp, ih.mpr ⟨k, Nat.lt_of_succ_lt_succ hk, v, hfirst, hv⟩⟩

theorem FirstAt.lt_size {k : Nat} {a : α} (hfirst : f.FirstAt name u k v)
    (hv : f.own? v name = some a) : k < f.size := by
  by_contra hk
  have within : ∀ i ≤ k, ∀ c, follow f.parent? i u = some c → c ∈ List.range f.size := by
    intro i hi c hc
    rw [List.mem_range]
    rcases Nat.lt_or_eq_of_le hi with hlt | rfl
    · obtain ⟨p, hp⟩ := follow_prefix hfirst.1 (show i + 1 ≤ k by omega)
      rw [follow_succ_last, hc, Option.bind_some] at hp
      exact lt_size_of_parent? hp
    · rw [Option.some.inj (hc.symm.trans hfirst.1)]
      exact lt_size_of_own? hv
  obtain ⟨i, j, hij, hj, heq⟩ := follow_repeats_within within hfirst.1
    (by rw [List.length_range]; omega)
  -- what lies between the two visits can be left out, so the binding was there earlier
  have hcut : follow f.parent? (i + (k - j)) u = some v := by
    rw [follow_add, heq, ← follow_add, Nat.add_sub_cancel' hj, hfirst.1]
  have hnone := hfirst.2 (i + (k - j)) (by omega) v hcut
  rw [hv] at hnone
  cases hnone

theorem lookup_eq_some_iff {a : α} :
    f.lookup u name = some a ↔ ∃ v, f.Exposes name u v ∧ f.own? v name = some a := by
  rw [lookup, chain, lookup_chainWithin_iff]
  simp only [exposes_iff]
  constructor
  · rintro ⟨k, -, v, hfirst, hv⟩
    exact ⟨v, ⟨k, hfirst⟩, hv⟩
  · rintro ⟨v, ⟨k, hfirst⟩, hv⟩
    exact ⟨k, hfirst.lt_size hv, v, hfirst, hv⟩

/-! ### A new binding -/

section Add

variable {t : Nat} {a : α}

theorem getElem?_add (f : Forest α) (t : Nat) (name : String) (a : α) (i : Nat) :
    (f.add t name a).tables[i]? =
      f.tables[i]?.map fun x => if t = i then { x with stack := x.stack.add name a } else x :=
  List.getElem?_modify _ _ _ _

@[simp] theorem parent?_add (f : Forest α) (t : Nat) (name : String) (a : α) (i : Nat) :
    (f.add t name a).parent? i = f.parent? i := by
  rw [parent?, getElem?_add, parent?]
  cases f.tables[i]? with
  | none => rfl
  | some x => by_cases h : t = i <;> simp [h]

theorem follow_parent?_add (k i : Nat) :
    follow (f.add t name a).parent? k i = follow f.parent? k i := by
  rw [funext (f.parent?_add t name a)]

theorem read_add (ht : t < f.size) (read : ScopeStack α → String → Option α)
    (hread : ∀ s n, read (s.add name a) n = if n = name then some a else read s n)
    (i : Nat) (n : String) :
    ((f.add t name a).tables[i]?.bind fun x => read x.stack n) =
      if i = t ∧ n = name then some a else f.tables[i]?.bind fun x => read x.stack n := by
  rw [getElem?_add]
  by_cases hi : t = i
  · subst hi
    have hx : f.tables[t]? = some f.tables[t] := List.getElem?_eq_getElem ht
    simp [hx, hread]
  · simp [hi, Ne.symm hi]

variable (ht : t < f.size)
include ht

theorem own?_add (name : String) (a : α) (i : Nat) (n : String) :
    (f.add t name a).own? i n = if i = t ∧ n = name then some a else f.own? i n :=
  read_add ht ScopeStack.find? (fun s n => s.find?_add name a n) i n

theorem peek_add (name : String) (a : α) (i : Nat) (n : String) :
    (f.add t name a).peek i n = if i = t ∧ n = name then some a else f.peek i n :=
  read_add ht ScopeStack.peek (fun s n => s.peek_add name a n) i n

theorem binds_add (name : String) (a : α) (i : Nat) (n : String) :
    (f.add t name a).Binds i n ↔ i = t ∧ n = name ∨ f.Binds i n := by
  rw [← not_iff_not, not_or, not_binds_iff, not_binds_iff, own?_add ht]
  by_cases h : i = t ∧ n = name
  · simp [h]
  · simp [h]

theorem FirstAt.add {k : Nat} (h : f.FirstAt name u k t) (a : α) :
    ∃ k', (f.add t name a).FirstAt name u k' t := by
  induction k generalizing u with
  | zero => exact ⟨0, firstAt_zero.mpr (firstAt_zero.mp h)⟩
  | succ k ih =>
    obtain ⟨hu, p, hp, hfirst⟩ := firstAt_succ.mp h
    obtain ⟨k', hk'⟩ := ih hfirst
    by_cases hut : u = t
    · exact ⟨0, firstAt_zero.mpr hut⟩
    · refine ⟨k' + 1, firstAt_succ.mpr ⟨?_, p, ?_, hk'⟩⟩
      · rw [own?_add ht, if_neg (fun h => hut h.1), hu]
      · rw [parent?_add, hp]

theorem lookup_add_of_exposes (h : f.Exposes name u t) (a : α) :
    (f.add t name a).lookup u name = some a := by
  obtain ⟨k, hfirst⟩ := exposes_iff.mp h
  refine lookup_eq_some_iff.mpr ⟨t, exposes_iff.mpr (hfirst.add ht a), ?_⟩
  rw [own?_add ht, if_pos ⟨rfl, rfl⟩]

theorem firstAt_add_iff {n : String} (h : ¬ (n = name ∧ f.Exposes name u t)) (a : α) {k : Nat} :
    (f.add t name a).FirstAt n u k v ↔ f.FirstAt n u k v := by
  rw [FirstAt, FirstAt, follow_parent?_add]
  refine and_congr_right fun _ => ⟨fun hfree j hj w hw => ?_, fun hfree j hj w hw => ?_⟩
  · have hnone := hfree j hj w (by rw [follow_parent?_add, hw])
    rw [own?_add ht] at hnone
    split_ifs at hnone
    exact hnone
  · rw [follow_parent?_add] at hw
    rw [own?_add ht, if_neg, hfree j hj w hw]
    rintro ⟨rfl, rfl⟩
    exact h ⟨rfl, exposes_iff.mpr ⟨j, hw, fun i hi => hfree i (by omega)⟩⟩

theorem lookup_add_of_not_exposes {n : String} (h : ¬ (n = name ∧ f.Exposes name u t)) (a : α) :
    (f.add t name a).lookup u n = f.lookup u n := by
  apply Option.ext
  intro x
  simp only [lookup_eq_some_iff, exposes_iff, firstAt_add_iff ht h]
  refine exists_congr fun v => and_congr_right fun ⟨k, hfirst⟩ => ?_
  rw [own?_add ht, if_neg]
  rintro ⟨rfl, rfl⟩
  exact h ⟨rfl, exposes_iff.mpr ⟨k, hfirst⟩⟩

end Add

end Forest

open Forest in
/-- A new binding is found from the tables whose search comes to its table before any other that
binds the name. For other tables and names a search finds what it found before, and only the table
itself shows the binding in its innermost scope. The first binding on the way is what is found, and
a binding to nothing is one. The tables may have come about in any way. -/
theorem add_seen_exactly {α : Type} {f : Forest (Option α)} {t : Nat} (ht : t < f.size)
    (name : String) (symbol : Option α) :
    let g := f.add t name symbol
    (∀ u, f.Exposes name u t → g.bound? u name = symbol) ∧
    (∀ u n, ¬ (n = name ∧ f.Exposes name u t) → g.bound? u n = f.bound? u n) ∧
    (∀ u n, g.peekBound? u n = if u = t ∧ n = name then symbol else f.peekBound? u n) ∧
    (∀ u n, g.Binds u n ↔ u = t ∧ n = name ∨ f.Binds u n) ∧
    (∀ u, g.parent? u = f.parent? u) ∧
    ∀ u n v x, f.Exposes n u v → f.own? v n = some x → f.bound? u n = x := by
  intro g
  refine ⟨?_, ?_, ?_, binds_add ht name symbol, f.parent?_add t name symbol, ?_⟩
  · intro u h
    rw [bound?, lookup_add_of_exposes ht h symbol, Option.join_some]
  · intro u n h
    rw [bound?, lookup_add_of_not_exposes ht h symbol, bound?]
  · intro u n
    rw [peekBound?, peek_add ht, peekBound?]
    split_ifs <;> rfl
  · intro u n v x hexposes hown
    rw [bound?, lookup_eq_some_iff.mpr ⟨v, hexposes, hown⟩, Option.join_some]

def hidingForest : Forest (Option Nat) :=
  ((((Forest.empty.grow none).grow (some 0)).grow (some 1)).add 0 "x" (some 1)).add 1 "x" none

theorem hidingForest_add :
    let g := hidingForest.add 0 "x" (some 2)
    0 < hidingForest.size ∧ hidingForest.Exposes "x" 0 0 ∧ g.bound? 0 "x" = some 2 ∧
      ¬ hidingForest.Exposes "x" 2 0 ∧ g.bound? 2 "x" = none := by
  intro g
  have hsize : 0 < hidingForest.size := by decide
  have hself : hidingForest.Exposes "x" 0 0 := ⟨0, rfl, fun _ hj => absurd hj (Nat.not_lt_zero _)⟩
  have hbinds : hidingForest.Binds 1 "x" := ⟨_, rfl, _, List.mem_cons_self, by decide⟩
  have hhidden : ¬ hidingForest.Exposes "x" 2 0 := by
    rintro ⟨k, hk, hfree⟩
    match k with
    | 0 | 1 => cases hk
    | k + 2 => exact hfree 1 (by omega) 1 rfl hbinds
  obtain ⟨hseen, hframe, -⟩ := add_seen_exactly hsize "x" (some 2)
  have hbefore : hidingForest.bound? 2 "x" = none := rfl
  exact ⟨hsize, hself, hseen 0 hself, hhidden, (hframe 2 "x" fun h => hhidden h.2).trans hbefore⟩

end ClassCheck
