import ClassCheck.Proofs.CheckSteps
import ClassCheck.Proofs.Judgements

/-!
# Steps that restore scopes and loops

A step of the check of a body leaves the loops around it and all scopes but the innermost as it
found them, whatever is wrong in what it checks. In the innermost scope, if there is one, it may
bind names, though none that is bound there already.
-/

namespace ClassCheck

/-- `t'` is `t` with names bound in its innermost scope that were not bound there. -/
structure ScopeStack.Grows {α : Type} (t t' : ScopeStack α) : Prop where
  level : t'.level = t.level
  outer : t'.exit = t.exit
  inner : ∃ new : Scope α, t'.scopes.head? = t.scopes.head?.map (new ++ ·) ∧
    ∀ b ∈ new, t.peek b.1 = none

namespace ScopeStack

variable {α : Type} {t t' t'' : ScopeStack α}

theorem peek_eq (t : ScopeStack α) (name : String) :
    t.peek name = t.scopes.head?.bind (·.lookup name) := by
  obtain ⟨scopes⟩ := t
  cases scopes <;> rfl

namespace Grows

theorem refl (t : ScopeStack α) : t.Grows t := by
  refine ⟨rfl, rfl, [], ?_, ?_⟩
  · cases t.scopes <;> rfl
  · intro b hb
    cases hb

theorem peek (h : t.Grows t') {name : String} {a : α} (hname : t.peek name = some a) :
    t'.peek name = some a := by
  obtain ⟨new, hhead, hnew⟩ := h.inner
  obtain ⟨scope, hscope, hlookup⟩ := Option.bind_eq_some_iff.mp (t.peek_eq name ▸ hname)
  -- the new bindings come first in the scope, but none of them is for this name
  have hnone : new.lookup name = none := by
    rw [Option.eq_none_iff_forall_ne_some]
    intro b hb
    rw [hnew _ (mem_of_lookup hb)] at hname
    cases hname
  rw [peek_eq, hhead, hscope, Option.map_some, Option.bind_some, List.lookup_append, hnone,
    Option.none_or]
  exact hlookup

theorem trans (h : t.Grows t') (h' : t'.Grows t'') : t.Grows t'' := by
  refine ⟨h'.level.trans h.level, h'.outer.trans h.outer, ?_⟩
  obtain ⟨new, hhead, hnew⟩ := h.inner
  obtain ⟨more, hhead', hmore⟩ := h'.inner
  refine ⟨more ++ new, ?_, ?_⟩
  · rw [hhead', hhead]
    cases t.scopes <;> simp
  · intro b hb
    rcases List.mem_append.mp hb with hb | hb
    · rw [Option.eq_none_iff_forall_ne_some]
      intro a ha
      have hfree := hmore b hb
      rw [h.peek ha] at hfree
      cases hfree
    · exact hnew b hb

theorem add (hlevel : 0 < t.level) {name : String} (hfree : t.peek name = none) (a : α) :
    t.Grows (t.add name a) := by
  obtain ⟨scopes⟩ := t
  cases scopes with
  | nil => cases hlevel
  | cons scope outer =>
    refine ⟨rfl, rfl, [(name, a)], rfl, ?_⟩
    intro b hb
    rw [List.mem_singleton.mp hb]
    exact hfree

end Grows

end ScopeStack

/-- The loops and the outer scopes are the same, and at most the innermost scope has grown. -/
structure BodyState.Restored (s s' : BodyState) : Prop where
  loops : s'.loops = s.loops
  outer : s'.locals.exit = s.locals.exit
  inner : 0 < s.locals.level → s.locals.Grows s'.locals

namespace BodyState.Restored

variable {s s' s'' : BodyState}

theorem same (hloops : s'.loops = s.loops) (hlocals : s'.locals = s.locals) : s.Restored s' :=
  ⟨hloops, congrArg _ hlocals, fun _ => hlocals ▸ .refl _⟩

theorem level_pos (h : s.Restored s') (hs : 0 < s.locals.level) : 0 < s'.locals.level := by
  rw [(h.inner hs).level]
  exact hs

theorem trans (h : s.Restored s') (h' : s'.Restored s'') : s.Restored s'' where
  loops := h'.loops.trans h.loops
  outer := h'.outer.trans h.outer
  inner := fun hs => (h.inner hs).trans (h'.inner (h.level_pos hs))

end BodyState.Restored

def Restores {α : Type} (m : Body α) : Prop := ∀ s : BodyState, s.Restored (m s).value.2

theorem Context.binding_fresh {cx : Context} {locals : ScopeStack Symbol} {line : Int}
    {kind : SymbolKind} {name : String} {type : Ty} {v : Symbol}
    (h : (cx.binding locals line kind name type).value = some v) :
    v.name = name ∧ locals.peek name = none := by
  rw [Context.binding] at h
  split_ifs at h with hreserved hbound hknown
  all_goals
    cases h
    exact ⟨rfl, by simpa using hbound⟩

namespace Restores

variable {α β : Type}

theorem bind {m : Body α} {f : α → Body β} (hm : Restores m) (hf : ∀ a, Restores (f a)) :
    Restores (m >>= f) :=
  fun s => (hm s).trans (hf _ _)

theorem yields {m : Body α} (hm : Restores m) {s s' : BodyState} {a : α}
    (h : Step.Yields m s a s') : s.Restored s' := by
  rw [← h.state_eq]
  exact hm s

theorem inLoop {m : Body Unit} (hm : Restores m) (line : Int) : Restores (Body.inLoop line m) := by
  intro s
  obtain ⟨hloops, houter, hinner⟩ := hm ⟨s.notes, s.locals, line :: s.loops⟩
  exact ⟨congrArg List.tail hloops, houter, hinner⟩

theorem inScope_locals {m : Body Unit} (hm : Restores m) (s : BodyState) :
    (m.inScope s).value.2.locals = s.locals :=
  -- what may grow inside is the scope that is closed
  (hm ⟨s.notes, s.locals.enter, s.loops⟩).outer.trans s.locals.exit_enter

def property : StepProperty where
  Holds := fun m _ => Restores m
  skip := fun _ => .same rfl rfl
  lift := fun _ _ => .same rfl rfl
  bind := bind
  loop := fun line hm => hm.inLoop line
  scope := fun hm s =>
    .same (hm ⟨s.notes, s.locals.enter, s.loops⟩).loops (hm.inScope_locals s)

theorem declare (cx : MethodContext) (line : Int) (kind : SymbolKind) (name : String) (type : Ty) :
    Restores (cx.declare line kind name type) := by
  intro s
  simp only [MethodContext.declare, Step.value_bind, Step.run_get, Step.value_lift]
  cases hbound : (cx.binding s.locals line kind name type).value with
  | none => exact .same rfl rfl
  | some v =>
    obtain ⟨hname, hfree⟩ := Context.binding_fresh hbound
    exact ⟨rfl, s.locals.exit_add v.name v, fun hs => .add hs (hname ▸ hfree) v⟩

theorem met (cx : MethodContext) : property.Met cx where
  value := fun _ _ => .same rfl rfl
  declare := declare cx
  breakLoop := fun _ _ => .same rfl rfl

end Restores

end ClassCheck
