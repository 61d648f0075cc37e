import ClassCheck.Diagnostic

/-! Values that come with reports. Steps run in order, and the reports of a later step follow those
of an earlier one. -/

namespace ClassCheck

/-- A value together with the problems that were met on the way to it. -/
structure Reported (π α : Type) where
  value : α
  reports : List (Located π)

namespace Reported

variable {π α β : Type}

@[ext]
theorem ext {x y : Reported π α} (value : x.value = y.value) (reports : x.reports = y.reports) :
    x = y := by
  cases x; cases y; simp_all

instance : Monad (Reported π) where
  pure a := ⟨a, []⟩
  bind x f := ⟨(f x.value).value, x.reports ++ (f x.value).reports⟩

@[simp] theorem value_pure (a : α) : (pure a : Reported π α).value = a := rfl

@[simp] theorem reports_pure (a : α) : (pure a : Reported π α).reports = [] := rfl

@[simp] theorem value_bind (x : Reported π α) (f : α → Reported π β) :
    (x >>= f).value = (f x.value).value := rfl

@[simp] theorem reports_bind (x : Reported π α) (f : α → Reported π β) :
    (x >>= f).reports = x.reports ++ (f x.value).reports := rfl

instance : LawfulMonad (Reported π) := LawfulMonad.mk' _
  (fun x => by apply ext <;> simp [Functor.map])
  (fun a f => by apply ext <;> simp)
  (fun x f g => by apply ext <;> simp)

@[simp] theorem value_map (f : α → β) (x : Reported π α) : (f <$> x).value = f x.value := rfl

@[simp] theorem reports_map (f : α → β) (x : Reported π α) : (f <$> x).reports = x.reports :=
  List.append_nil _

def report (file : String) (line : Int) (problem : π) : Reported π Unit :=
  ⟨(), [⟨file, line, problem⟩]⟩

@[simp] theorem reports_report (file : String) (line : Int) (problem : π) :
    (report file line problem).reports = [⟨file, line, problem⟩] := rfl

/-- Goes on with the new value, or reports the problem and keeps the old one. -/
def attempt (old : α) (file : String) (line : Int) : Except π α → Reported π α
  | .ok new => pure new
  | .error problem => do
      report file line problem
      pure old

theorem value_attempt (old : α) (file : String) (line : Int) (outcome : Except π α) :
    (attempt old file line outcome).value = match outcome with
      | .ok new => new
      | .error _ => old := by
  cases outcome <;> rfl

theorem map_attempt (f : α → β) (old : α) (file : String) (line : Int) (outcome : Except π α) :
    f <$> attempt old file line outcome = attempt (f old) file line (outcome.map f) := by
  cases outcome <;> rfl

def forEach (as : List α) (step : α → Reported π β) : Reported π (List β) :=
  ⟨as.map fun a => (step a).value, as.flatMap fun a => (step a).reports⟩

def diagnostics [Explained π] (x : Reported π α) : List Diagnostic :=
  x.reports.map Located.diagnostic

end Reported

end ClassCheck
