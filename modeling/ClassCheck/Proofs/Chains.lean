import Mathlib.Data.List.Nodup
import Mathlib.Data.List.Perm.Subperm
import Mathlib.Logic.Relation

/-! Following a partial step from element to element. Within a finite list that the step does not
leave, whatever is reached at all is reached in fewer steps than the list is long. -/

namespace ClassCheck

def follow {α : Type} (step : α → Option α) : Nat → α → Option α
  | 0, a => some a
  | n + 1, a => (step a).bind (follow step n)

variable {α : Type} {step : α → Option α}

@[simp] theorem follow_zero (a : α) : follow step 0 a = some a := rfl

theorem follow_succ (n : Nat) (a : α) : follow step (n + 1) a = (step a).bind (follow step n) := rfl

theorem follow_add (m n : Nat) (a : α) :
    follow step (m + n) a = (follow step m a).bind (follow step n) := by
  induction m generalizing a with
  | zero => rw [Nat.zero_add, follow_zero, Option.bind_some]
  | succ m ih =>
    rw [Nat.succ_add_eq_add_succ, Nat.add_succ, follow_succ, follow_succ]
    cases step a with
    | none => rfl
    | some b => exact ih b

theorem follow_succ_last (n : Nat) (a : α) :
    follow step (n + 1) a = (follow step n a).bind step := by
  rw [follow_add]
  congr 1
  funext b
  rw [follow_succ]
  cases step b <;> rfl

theorem follow_none_mono {m n : Nat} {a : α} (hm : follow step m a = none) (hmn : m ≤ n) :
    follow step n a = none := by
  obtain ⟨k, rfl⟩ := Nat.exists_eq_add_of_le hmn
  rw [follow_add, hm, Option.bind_none]

theorem follow_prefix {m n : Nat} {a b : α} (hn : follow step n a = some b) (hmn : m ≤ n) :
    ∃ c, follow step m a = some c := by
  cases hm : follow step m a with
  | some c => exact ⟨c, rfl⟩
  | none =>
    rw [follow_none_mono hm hmn] at hn
    cases hn

theorem follow_mem {l : List α} (closed : ∀ a ∈ l, ∀ b, step a = some b → b ∈ l)
    {n : Nat} {a b : α} (ha : a ∈ l) (hn : follow step n a = some b) : b ∈ l := by
  induction n generalizing b with
  | zero =>
    rw [follow_zero] at hn
    cases hn
    exact ha
  | succ n ih =>
    rw [follow_succ_last] at hn
    obtain ⟨c, hc, hcb⟩ := Option.bind_eq_some_iff.mp hn
    exact closed c (ih hc) b hcb

theorem reflTransGen_iff_follow {a b : α} :
    Relation.ReflTransGen (fun x y => step x = some y) a b ↔ ∃ n, follow step n a = some b := by
  constructor
  · intro h
    induction h with
    | refl => exact ⟨0, rfl⟩
    | tail _ hbc ih =>
      obtain ⟨n, hn⟩ := ih
      refine ⟨n + 1, ?_⟩
      rw [follow_succ_last, hn]
      exact hbc
  · intro h
    obtain ⟨n, hn⟩ := h
    induction n generalizing b with
    | zero =>
      rw [follow_zero] at hn
      cases hn
      exact .refl
    | succ n ih =>
      rw [follow_succ_last] at hn
      obtain ⟨c, hc, hcb⟩ := Option.bind_eq_some_iff.mp hn
      exact (ih hc).tail hcb

theorem transGen_iff_follow {a b : α} :
    Relation.TransGen (fun x y => step x = some y) a b ↔ ∃ n, follow step (n + 1) a = some b := by
  rw [Relation.TransGen.head'_iff]
  constructor
  · intro h
    obtain ⟨c, hac, hcb⟩ := h
    obtain ⟨n, hn⟩ := reflTransGen_iff_follow.mp hcb
    exact ⟨n, by rw [follow_succ, hac, Option.bind_some, hn]⟩
  · intro h
    obtain ⟨n, hn⟩ := h
    obtain ⟨c, hac, hcb⟩ := Option.bind_eq_some_iff.mp (follow_succ n a ▸ hn)
    exact ⟨c, hac, reflTransGen_iff_follow.mpr ⟨n, hcb⟩⟩

/-- A walk within a list that is as long as the list meets some element twice. -/
theorem follow_repeats_within {l : List α} {n : Nat} {a b : α}
    (within : ∀ i ≤ n, ∀ c, follow step i a = some c → c ∈ l) (hn : follow step n a = some b)
    (hl : l.length ≤ n) : ∃ i j, i < j ∧ j ≤ n ∧ follow step i a = follow step j a := by
  by_contra hno
  -- without a repetition the walk would be a duplicate-free part of the list, yet longer
  have hnodup : ((List.range (n + 1)).map fun i => follow step i a).Nodup := by
    rw [List.nodup_map_iff_inj_on List.nodup_range]
    intro i hi j hj hij
    rw [List.mem_range] at hi hj
    rcases Nat.lt_trichotomy i j with h | h | h
    · exact absurd ⟨i, j, h, by omega, hij⟩ hno
    · exact h
    · exact absurd ⟨j, i, h, by omega, hij.symm⟩ hno
  have hsub : ((List.range (n + 1)).map fun i => follow step i a) ⊆ l.map some := by
    intro o ho
    obtain ⟨i, hi, rfl⟩ := List.mem_map.mp ho
    rw [List.mem_range] at hi
    obtain ⟨c, hc⟩ := follow_prefix hn (show i ≤ n by omega)
    rw [hc]
    exact List.mem_map_of_mem (within i (by omega) c hc)
  have hlen := (hnodup.subperm hsub).length_le
  rw [List.length_map, List.length_map, List.length_range] at hlen
  omega

theorem follow_repeats {l : List α} (closed : ∀ a ∈ l, ∀ b, step a = some b → b ∈ l)
    {n : Nat} {a b : α} (ha : a ∈ l) (hn : follow step n a = some b) (hl : l.length ≤ n) :
    ∃ i j, i < j ∧ j ≤ n ∧ follow step i a = follow step j a :=
  follow_repeats_within (fun _ _ _ hc => follow_mem closed ha hc) hn hl

theorem follow_bounded {l : List α} (closed : ∀ a ∈ l, ∀ b, step a = some b → b ∈ l)
    {n : Nat} {a b : α} (ha : a ∈ l) (hn : follow step n a = some b) :
    ∃ m, m < l.length ∧ follow step m a = some b := by
  induction n using Nat.strongRecOn with
  | ind n ih =>
    by_cases hl : n < l.length
    · exact ⟨n, hl, hn⟩
    obtain ⟨i, j, hij, hj, heq⟩ := follow_repeats closed ha hn (by omega)
    -- what lies between the two visits can be left out
    have hcut : follow step (i + (n - j)) a = some b := by
      rw [follow_add, heq, ← follow_add, Nat.add_sub_cancel' hj, hn]
    exact ih (i + (n - j)) (by omega) hcut

theorem follow_ends {l : List α} (closed : ∀ a ∈ l, ∀ b, step a = some b → b ∈ l)
    (acyclic : ∀ a ∈ l, ∀ n, follow step (n + 1) a ≠ some a) {a : α} (ha : a ∈ l) :
    follow step l.length a = none := by
  cases hn : follow step l.length a with
  | none => rfl
  | some b =>
    obtain ⟨i, j, hij, hj, heq⟩ := follow_repeats closed ha hn (Nat.le_refl _)
    obtain ⟨c, hc⟩ := follow_prefix hn (show i ≤ l.length by omega)
    have hback : follow step (j - i - 1 + 1) c = some c := by
      have hsplit : follow step (i + (j - i)) a = (follow step i a).bind (follow step (j - i)) :=
        follow_add i (j - i) a
      rw [Nat.add_sub_cancel' (Nat.le_of_lt hij), ← heq, hc, Option.bind_some] at hsplit
      rw [Nat.sub_add_cancel (by omega), ← hsplit]
    exact absurd hback (acyclic c (follow_mem closed ha hc) _)

end ClassCheck
