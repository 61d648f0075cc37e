import ClassCheck.Proofs.NearestBinding
import Mathlib.Data.List.Infix

/-!
# Scopes are undone

Whatever is done to a table between entering a scope and leaving it again stands in new scopes on
top of those the table had. As long as the new scope is not left on the way, the old scopes are out
of reach. So the table comes back exactly as it was if, and only if, each scope that was entered on
the way has been left.
-/

namespace ClassCheck

inductive ScopeStep (α : Type) where
  | enter
  | add (name : String) (a : α)
  | exit

namespace ScopeStep

variable {α : Type}

def onTable (i : Nat) (f : Forest α) : ScopeStep α → Forest α
  | enter => f.enter i
  | add name a => f.add i name a
  | exit => f.exit i

def isEnter : ScopeStep α → Bool
  | enter => true
  | _ => false

def isExit : ScopeStep α → Bool
  | exit => true
  | _ => false

def enters (steps : List (ScopeStep α)) : Nat := steps.countP isEnter

def exits (steps : List (ScopeStep α)) : Nat := steps.countP isExit

/-- No step leaves a scope that was not entered by an earlier step. -/
def StaysInside (steps : List (ScopeStep α)) : Prop :=
  ∀ before ∈ steps.inits, exits before ≤ enters before

instance (steps : List (ScopeStep α)) : Decidable (StaysInside steps) :=
  inferInstanceAs (Decidable (∀ before ∈ steps.inits, exits before ≤ enters before))

theorem enters_concat (steps : List (ScopeStep α)) (step : ScopeStep α) :
    enters (steps ++ [step]) = enters steps + enters [step] :=
  List.countP_append

theorem exits_concat (steps : List (ScopeStep α)) (step : ScopeStep α) :
    exits (steps ++ [step]) = exits steps + exits [step] :=
  List.countP_append

namespace StaysInside

variable {steps before : List (ScopeStep α)}

theorem of_initial (h : StaysInside steps) (hbefore : before <+: steps) : StaysInside before := by
  intro first hfirst
  have hsteps : first <+: steps := ((List.mem_inits first before).mp hfirst).trans hbefore
  exact h first ((List.mem_inits first steps).mpr hsteps)

theorem exits_le (h : StaysInside steps) : exits steps ≤ enters steps :=
  h steps ((List.mem_inits steps steps).mpr (List.prefix_refl steps))

end StaysInside

end ScopeStep

namespace Forest

variable {α : Type} {f : Forest α} {i : Nat}

def perform (f : Forest α) (i : Nat) (steps : List (ScopeStep α)) : Forest α :=
  steps.foldl (ScopeStep.onTable i) f

theorem perform_concat (f : Forest α) (i : Nat) (steps : List (ScopeStep α)) (step : ScopeStep α) :
    f.perform i (steps ++ [step]) = step.onTable i (f.perform i steps) :=
  List.foldl_concat ..

/-! ### New scopes on top of a table -/

def pile (f : Forest α) (i : Nat) (new : List (Scope α)) : Forest α :=
  f.onStack i fun t => ⟨new ++ t.scopes⟩

theorem onStack_onStack (f : Forest α) (i : Nat) (g h : ScopeStack α → ScopeStack α) :
    (f.onStack i g).onStack i h = f.onStack i (h ∘ g) :=
  congrArg Forest.mk (List.modify_modify_eq ..)

@[simp] theorem pile_nil (f : Forest α) (i : Nat) : f.pile i [] = f :=
  congrArg Forest.mk (List.modify_id i f.tables)

@[simp] theorem size_pile (f : Forest α) (i : Nat) (new : List (Scope α)) :
    (f.pile i new).size = f.size :=
  List.length_modify ..

theorem enter_pile (f : Forest α) (i : Nat) (new : List (Scope α)) :
    (f.pile i new).enter i = f.pile i ([] :: new) :=
  onStack_onStack ..

theorem add_pile (f : Forest α) (i : Nat) (scope : Scope α) (new : List (Scope α)) (name : String)
    (a : α) : (f.pile i (scope :: new)).add i name a = f.pile i (((name, a) :: scope) :: new) :=
  onStack_onStack ..

theorem exit_pile (f : Forest α) (i : Nat) (scope : Scope α) (new : List (Scope α)) :
    (f.pile i (scope :: new)).exit i = f.pile i new :=
  onStack_onStack ..

theorem level_pile (hi : i < f.size) (new : List (Scope α)) :
    (f.pile i new).level i = new.length + f.level i := by
  have hget : f.tables[i]? = some f.tables[i] := List.getElem?_eq_getElem hi
  simp [pile, onStack, modify, level, ScopeStack.level, hget]

theorem pile_eq_self_iff (hi : i < f.size) {new : List (Scope α)} :
    f.pile i new = f ↔ new = [] := by
  constructor
  · intro h
    have hlevel := level_pile hi new
    rw [h] at hlevel
    exact List.length_eq_zero_iff.mp (by omega)
  · rintro rfl
    exact pile_nil f i

/-! ### Steps act on the new scopes -/

open ScopeStep in
theorem onTable_pile (f : Forest α) (i : Nat) (scope : Scope α) (rest : List (Scope α))
    (step : ScopeStep α) : ∃ new : List (Scope α),
      new.length + exits [step] = rest.length + 1 + enters [step] ∧
      step.onTable i (f.pile i (scope :: rest)) = f.pile i new := by
  cases step with
  | enter => exact ⟨[] :: scope :: rest, rfl, enter_pile f i (scope :: rest)⟩
  | add name a => exact ⟨((name, a) :: scope) :: rest, rfl, add_pile f i scope rest name a⟩
  | exit => exact ⟨rest, rfl, exit_pile f i scope rest⟩

open ScopeStep in
/-- Besides the scope that was entered at first there are as many new scopes as were entered and
not left. -/
theorem perform_enter (f : Forest α) (i : Nat) {steps : List (ScopeStep α)}
    (hinside : StaysInside steps) : ∃ (scope : Scope α) (rest : List (Scope α)),
      rest.length + exits steps = enters steps ∧
      (f.enter i).perform i steps = f.pile i (scope :: rest) := by
  -- from the right, since what a sequence leaves behind is what its last step finds
  induction steps using List.reverseRecOn with
  | nil => exact ⟨[], [], rfl, rfl⟩
  | append_singleton steps step ih =>
    have hsteps := hinside.of_initial (List.prefix_append steps [step])
    obtain ⟨scope, rest, hlength, hpile⟩ := ih hsteps
    obtain ⟨new, hnew, hstep⟩ := f.onTable_pile i scope rest step
    have hle := hinside.exits_le
    rw [enters_concat, exits_concat] at hle ⊢
    cases new with
    | nil =>
      -- the step would have left the scope that was entered at first
      rw [List.length_nil] at hnew
      omega
    | cons scope' rest' =>
      rw [List.length_cons] at hnew
      exact ⟨scope', rest', by omega, by rw [perform_concat, hpile, hstep]⟩

end Forest

open ScopeStep in
/-- A scope is entered, any steps are taken that do not leave it, and it is left. Then all tables
are as they were exactly if each scope entered on the way was left on the way, and then every name
is found as before, from every table. On the way the table has the scopes that were entered and not
left on top of its own, and a name that is added is bound in the innermost. -/
theorem scopes_undone {α : Type} {f : Forest (Option α)} {t : Nat} (ht : t < f.size)
    {steps : List (ScopeStep (Option α))} (hinside : StaysInside steps) :
    let g := ((f.enter t).perform t steps).exit t
    (g = f ↔ enters steps = exits steps) ∧
    (enters steps = exits steps → ∀ u name,
      g.peekBound? u name = f.peekBound? u name ∧ g.bound? u name = f.bound? u name) ∧
    (∀ before, before <+: steps →
      ((f.enter t).perform t before).level t + exits before = f.level t + 1 + enters before) ∧
    ∀ before name symbol, before ++ [.add name symbol] <+: steps →
      ((f.enter t).perform t (before ++ [.add name symbol])).peekBound? t name = symbol := by
  intro g
  have hundone : g = f ↔ enters steps = exits steps := by
    obtain ⟨scope, rest, hlength, hpile⟩ := f.perform_enter t hinside
    have hg : g = f.pile t rest := by rw [← f.exit_pile t scope rest, ← hpile]
    rw [hg, Forest.pile_eq_self_iff ht, ← List.length_eq_zero_iff]
    omega
  refine ⟨hundone, ?_, ?_, ?_⟩
  · intro hclosed u name
    rw [hundone.mpr hclosed]
    exact ⟨rfl, rfl⟩
  · intro before hbefore
    obtain ⟨scope, rest, hlength, hpile⟩ := f.perform_enter t (hinside.of_initial hbefore)
    rw [hpile, Forest.level_pile ht, List.length_cons]
    omega
  · intro before name symbol hadded
    have hbefore : before <+: steps := (List.prefix_append before _).trans hadded
    obtain ⟨scope, rest, -, hpile⟩ := f.perform_enter t (hinside.of_initial hbefore)
    have hsize : t < ((f.enter t).perform t before).size := by
      rw [hpile, Forest.size_pile]
      exact ht
    rw [Forest.perform_concat, onTable, Forest.peekBound?, Forest.peek_add hsize,
      if_pos ⟨rfl, rfl⟩, Option.join_some]

def nestedSteps : List (ScopeStep (Option Nat)) :=
  [.add "x" (some 2), .enter, .add "x" none, .exit, .add "y" (some 3)]

open ScopeStep in
theorem nestedSteps_undone :
    let inside (t : Nat) := (hidingForest.enter t).perform t nestedSteps
    StaysInside nestedSteps ∧ enters nestedSteps = exits nestedSteps ∧
      hidingForest.level 2 = 0 ∧ (inside 2).bound? 2 "x" = some 2 ∧
      (inside 2).exit 2 = hidingForest ∧ ((inside 2).exit 2).bound? 2 "x" = none ∧
      (inside 0).bound? 1 "y" = some 3 ∧ ((inside 0).exit 0).bound? 1 "y" = none := by
  intro inside
  have hinside : StaysInside nestedSteps := by decide
  have hclosed : enters nestedSteps = exits nestedSteps := by decide
  have hbefore : hidingForest.bound? 2 "x" = none ∧ hidingForest.bound? 1 "y" = none := ⟨rfl, rfl⟩
  have hlast := scopes_undone (show 2 < hidingForest.size by decide) hinside
  have hfirst := scopes_undone (show 0 < hidingForest.size by decide) hinside
  exact ⟨hinside, hclosed, rfl, rfl, hlast.1.mpr hclosed,
    (hlast.2.1 hclosed 2 "x").2.trans hbefore.1, rfl, (hfirst.2.1 hclosed 1 "y").2.trans hbefore.2⟩

end ClassCheck
