import ClassCheck.Scope

/-! Numbered tables, each a stack of scopes that may go on in a parent table. A table sees what its
parent holds at the time of the search. -/

namespace ClassCheck

structure Table (α : Type) where
  stack : ScopeStack α
  parent : Option Nat

structure Forest (α : Type) where
  tables : List (Table α)

namespace Forest

variable {α : Type}

def empty : Forest α := ⟨[]⟩

def size (f : Forest α) : Nat := f.tables.length

def grow (f : Forest α) (parent : Option Nat) : Forest α := ⟨f.tables ++ [⟨.empty, parent⟩]⟩

def modify (f : Forest α) (i : Nat) (change : Table α → Table α) : Forest α :=
  ⟨f.tables.modify i change⟩

def setParent (f : Forest α) (i : Nat) (parent : Option Nat) : Forest α :=
  f.modify i fun t => { t with parent := parent }

def onStack (f : Forest α) (i : Nat) (change : ScopeStack α → ScopeStack α) : Forest α :=
  f.modify i fun t => { t with stack := change t.stack }

def enter (f : Forest α) (i : Nat) : Forest α := f.onStack i .enter

def exit (f : Forest α) (i : Nat) : Forest α := f.onStack i .exit

def add (f : Forest α) (i : Nat) (name : String) (a : α) : Forest α :=
  f.onStack i (·.add name a)

def parent? (f : Forest α) (i : Nat) : Option Nat := f.tables[i]?.bind (·.parent)

def level (f : Forest α) (i : Nat) : Nat := (f.tables[i]?.map (·.stack.level)).getD 0

def peek (f : Forest α) (i : Nat) (name : String) : Option α :=
  f.tables[i]?.bind (·.stack.peek name)

def chainWithin (f : Forest α) : Nat → Nat → List (ScopeStack α)
  | 0, _ => []
  | n + 1, i =>
      match f.tables[i]? with
      | none => []
      | some t => t.stack :: (t.parent.map (f.chainWithin n)).getD []

/-- The stacks from `i` on toward its ancestors. Where parents form no loop there are at most as
many as there are tables. -/
def chain (f : Forest α) (i : Nat) : List (ScopeStack α) := f.chainWithin f.size i

def lookup (f : Forest α) (i : Nat) (name : String) : Option α := ScopeStack.lookup (f.chain i) name

def peekBound? (f : Forest (Option α)) (i : Nat) (name : String) : Option α := (f.peek i name).join

/-- What a name stands for, where it may be bound to nothing. Such a binding still hides those
outside of it. -/
def bound? (f : Forest (Option α)) (i : Nat) (name : String) : Option α :=
  (f.lookup i name).join

end Forest

end ClassCheck
