/-! Scopes bind names; a stack of scopes is searched from the innermost outward, and a chain of
stacks from the nearest on. Adding a name that is bound already in the innermost scope replaces its
binding there. -/

namespace ClassCheck

abbrev Scope (α : Type) := List (String × α)

structure ScopeStack (α : Type) where
  scopes : List (Scope α)

namespace ScopeStack

variable {α : Type}

def empty : ScopeStack α := ⟨[]⟩

def enter (t : ScopeStack α) : ScopeStack α := ⟨[] :: t.scopes⟩

def exit (t : ScopeStack α) : ScopeStack α := ⟨t.scopes.tail⟩

def level (t : ScopeStack α) : Nat := t.scopes.length

/-- Binds a name in the innermost scope, and opens one if there is none. -/
def add (t : ScopeStack α) (name : String) (a : α) : ScopeStack α :=
  match t.scopes with
  | [] => ⟨[[(name, a)]]⟩
  | scope :: outer => ⟨((name, a) :: scope) :: outer⟩

def peek (t : ScopeStack α) (name : String) : Option α :=
  match t.scopes with
  | [] => none
  | scope :: _ => scope.lookup name

def find? (t : ScopeStack α) (name : String) : Option α :=
  t.scopes.findSome? (·.lookup name)

def lookup (chain : List (ScopeStack α)) (name : String) : Option α :=
  chain.findSome? (·.find? name)

@[simp] theorem exit_enter (t : ScopeStack α) : t.enter.exit = t := rfl

@[simp] theorem level_enter (t : ScopeStack α) : t.enter.level = t.level + 1 := rfl

@[simp] theorem peek_enter (t : ScopeStack α) (name : String) : t.enter.peek name = none := rfl

@[simp] theorem find?_enter (t : ScopeStack α) (name : String) :
    t.enter.find? name = t.find? name := rfl

theorem exit_add (t : ScopeStack α) (name : String) (a : α) : (t.add name a).exit = t.exit := by
  cases t with
  | mk scopes => cases scopes <;> rfl

theorem peek_add (t : ScopeStack α) (name : String) (a : α) (other : String) :
    (t.add name a).peek other = if other = name then some a else t.peek other := by
  cases t with
  | mk scopes =>
    by_cases h : other = name
    · cases scopes <;> simp [add, peek, h]
    · have differs : (other == name) = false := beq_eq_false_iff_ne.mpr h
      cases scopes <;> simp [add, peek, List.lookup_cons, h, differs]

theorem find?_add (t : ScopeStack α) (name : String) (a : α) (other : String) :
    (t.add name a).find? other = if other = name then some a else t.find? other := by
  cases t with
  | mk scopes =>
    by_cases h : other = name
    · cases scopes <;> simp [add, find?, h]
    · have differs : (other == name) = false := beq_eq_false_iff_ne.mpr h
      cases scopes <;> simp [add, find?, List.findSome?_cons, List.lookup_cons, h, differs]

end ScopeStack

end ClassCheck
