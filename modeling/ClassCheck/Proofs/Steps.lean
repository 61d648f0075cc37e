import ClassCheck.Reported

/-! Steps that carry a state and report problems: what they leave behind, what they report, and what
they give when they report nothing. -/

namespace ClassCheck

namespace Reported

variable {π α β : Type}

@[simp] theorem pure_eq_pure_iff {a b : α} : (pure a : Reported π α) = pure b ↔ b = a := by
  constructor
  · intro h
    exact (congrArg Reported.value h).symm
  · intro h
    rw [h]

@[simp] theorem bind_eq_pure_iff {x : Reported π α} {f : α → Reported π β} {b : β} :
    x >>= f = pure b ↔ ∃ a, x = pure a ∧ f a = pure b := by
  constructor
  · intro h
    have hreports := congrArg Reported.reports h
    rw [reports_bind, reports_pure, List.append_eq_nil_iff] at hreports
    have hvalue : (f x.value).value = b := congrArg Reported.value h
    exact ⟨x.value, ext rfl hreports.1, ext hvalue hreports.2⟩
  · intro h
    obtain ⟨a, rfl, h⟩ := h
    rw [pure_bind, h]

@[simp] theorem map_eq_pure_iff {x : Reported π α} {f : α → β} {b : β} :
    f <$> x = pure b ↔ ∃ a, x = pure a ∧ b = f a := by
  rw [map_eq_pure_bind, bind_eq_pure_iff]
  simp

end Reported

namespace Step

variable {σ π α β : Type}

@[simp] theorem value_bind (m : StateT σ (Reported π) α) (f : α → StateT σ (Reported π) β) (s : σ) :
    ((m >>= f) s).value = (f (m s).value.1 (m s).value.2).value := rfl

@[simp] theorem reports_bind (m : StateT σ (Reported π) α) (f : α → StateT σ (Reported π) β)
    (s : σ) :
    ((m >>= f) s).reports = (m s).reports ++ (f (m s).value.1 (m s).value.2).reports := rfl

@[simp] theorem value_lift (j : Reported π α) (s : σ) :
    ((liftM j : StateT σ (Reported π) α) s).value = (j.value, s) := rfl

@[simp] theorem reports_lift (j : Reported π α) (s : σ) :
    ((liftM j : StateT σ (Reported π) α) s).reports = j.reports := List.append_nil _

@[simp] theorem run_get (s : σ) : (get : StateT σ (Reported π) σ) s = ⟨(s, s), []⟩ := rfl

/-- Run from `s`, the step gives `a`, leaves `s'` and reports nothing. -/
def Yields (m : StateT σ (Reported π) α) (s : σ) (a : α) (s' : σ) : Prop := m s = pure (a, s')

theorem reports_eq_nil_iff {m : StateT σ (Reported π) α} {s : σ} :
    (m s).reports = [] ↔ ∃ a s', Yields m s a s' := by
  constructor
  · intro h
    exact ⟨(m s).value.1, (m s).value.2, Reported.ext rfl h⟩
  · intro h
    obtain ⟨a, s', h⟩ := h
    rw [h]
    rfl

theorem Yields.state_eq {m : StateT σ (Reported π) α} {s s' : σ} {a : α} (h : Yields m s a s') :
    (m s).value.2 = s' := by
  rw [h]
  rfl

theorem yields_bind_iff {m : StateT σ (Reported π) α} {f : α → StateT σ (Reported π) β} {s s'' : σ}
    {b : β} :
    Yields (m >>= f) s b s'' ↔ ∃ a s', Yields m s a s' ∧ Yields (f a) s' b s'' := by
  change (m s >>= fun r => f r.1 r.2) = pure (b, s'') ↔ _
  rw [Reported.bind_eq_pure_iff]
  constructor
  · intro h
    obtain ⟨⟨a, s'⟩, hm, hf⟩ := h
    exact ⟨a, s', hm, hf⟩
  · intro h
    obtain ⟨a, s', hm, hf⟩ := h
    exact ⟨(a, s'), hm, hf⟩

theorem yields_pure_iff {a b : α} {s s' : σ} :
    Yields (pure a : StateT σ (Reported π) α) s b s' ↔ b = a ∧ s' = s := by
  change (pure (a, s) : Reported π (α × σ)) = pure (b, s') ↔ _
  rw [Reported.pure_eq_pure_iff, Prod.mk.injEq]

theorem yields_lift_iff {j : Reported π α} {a : α} {s s' : σ} :
    Yields (liftM j : StateT σ (Reported π) α) s a s' ↔ j = pure a ∧ s' = s := by
  change (j >>= fun b => pure (b, s)) = pure (a, s') ↔ _
  rw [Reported.bind_eq_pure_iff]
  constructor
  · intro h
    obtain ⟨b, hj, h⟩ := h
    cases Reported.pure_eq_pure_iff.mp h
    exact ⟨hj, rfl⟩
  · intro h
    obtain ⟨hj, rfl⟩ := h
    exact ⟨a, hj, rfl⟩

theorem yields_get_bind_iff {f : σ → StateT σ (Reported π) β} {s s' : σ} {b : β} :
    Yields (get >>= f) s b s' ↔ Yields (f s) s b s' := Iff.rfl

theorem yields_modify_iff {f : σ → σ} {u : Unit} {s s' : σ} :
    Yields (modify f : StateT σ (Reported π) Unit) s u s' ↔ u = () ∧ s' = f s := by
  change (pure ((), f s) : Reported π (Unit × σ)) = pure (u, s') ↔ _
  rw [Reported.pure_eq_pure_iff, Prod.mk.injEq]

def Quietly (m : StateT σ (Reported π) α) (s : σ) (a : α) : Prop := ∃ s', Yields m s a s'

theorem quietly_lift_iff {j : Reported π α} {s : σ} {a : α} :
    Quietly (liftM j : StateT σ (Reported π) α) s a ↔ j = pure a := by
  simp only [Quietly, yields_lift_iff, exists_and_left, exists_eq, and_true]

theorem quietly_lift_bind_iff {j : Reported π α} {f : α → StateT σ (Reported π) β} {s : σ} {b : β} :
    Quietly (liftM j >>= f) s b ↔ ∃ a, j = pure a ∧ Quietly (f a) s b := by
  simp only [Quietly, yields_bind_iff, yields_lift_iff]
  constructor
  · intro h
    obtain ⟨s'', a, s', ⟨hj, rfl⟩, h⟩ := h
    exact ⟨a, hj, s'', h⟩
  · intro h
    obtain ⟨a, hj, s'', h⟩ := h
    exact ⟨s'', a, s, ⟨hj, rfl⟩, h⟩

theorem quietly_get_bind_iff {f : σ → StateT σ (Reported π) β} {s : σ} {b : β} :
    Quietly (get >>= f) s b ↔ Quietly (f s) s b := Iff.rfl

end Step

end ClassCheck
