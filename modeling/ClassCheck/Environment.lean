import ClassCheck.Members
import ClassCheck.Scope.Forest

/-! The member tables of all classes. Classes are numbered as they were registered. Their tables are
filled class by class, and what a class inherits is looked up in the tables as they stand, so every
class has to come after those whose members it sees. -/

namespace ClassCheck

namespace Hierarchy

def number (h : Hierarchy) (c : ClassNode) : Nat := h.classes.findIdx (·.name == c.name)

/-- The class in whose tables those of `c` continue: its parent, or the root if it has none. -/
def tableParent? (h : Hierarchy) (c : ClassNode) : Option ClassNode :=
  if c.isRoot then none else some ((h.parent? c).getD root)

end Hierarchy

structure Slot where
  members : Members
  parent : Option Nat

structure Environment where
  slots : List Slot

namespace Environment

def initial (h : Hierarchy) : Environment :=
  ⟨h.classes.map fun c => ⟨.empty, (h.tableParent? c).map h.number⟩⟩

def tables {α : Type} (e : Environment) (table : Members → ScopeStack α) : Forest α :=
  ⟨e.slots.map fun s => ⟨table s.members, s.parent⟩⟩

def vars (e : Environment) : Forest Symbol := e.tables (·.vars)

def signatures (e : Environment) : Forest Signature := e.tables (·.signatures)

def members (e : Environment) (i : Nat) : Members := (e.slots[i]?.map (·.members)).getD .empty

def above (e : Environment) (h : Hierarchy) (c : ClassNode) : List Members :=
  (h.sources c).map fun d => e.members (h.number d)

def set (e : Environment) (i : Nat) (m : Members) : Environment :=
  ⟨e.slots.modify i fun s => { s with members := m }⟩

def declareField (e : Environment) (h : Hierarchy) (c : ClassNode) (f : Field) :
    Except MemberProblem Environment :=
  let i := h.number c
  (f.vet h c (e.vars.peek i f.name)).map fun s => e.set i ((e.members i).addField s)

/-- A name that the class has not taken itself is looked up in its table and on from there, so what
is found is inherited. -/
def declareMethod (e : Environment) (h : Hierarchy) (c : ClassNode) (d : Method) :
    Except MemberProblem Environment :=
  let i := h.number c
  (d.vet h c (e.signatures.peek i d.name) (e.signatures.lookup i d.name)).map fun s =>
    e.set i ((e.members i).addMethod s)

def declare (e : Environment) (h : Hierarchy) (c : ClassNode) :
    Member → Reported MemberProblem Environment
  | .field f => .attempt e c.decl.file f.line (e.declareField h c f)
  | .method d => .attempt e c.decl.file d.line (e.declareMethod h c d)

def declareAll (e : Environment) (h : Hierarchy) (c : ClassNode) :
    List (Option Member) → Reported MemberProblem Environment
  | [] => pure e
  | none :: rest => e.declareAll h c rest
  | some member :: rest => do
      let e' ← e.declare h c member
      e'.declareAll h c rest

def fill (e : Environment) (h : Hierarchy) (c : ClassNode) : Reported MemberProblem Environment :=
  e.declareAll h c c.decl.members

def fillAll (e : Environment) (h : Hierarchy) (cs : List ClassNode) :
    Reported MemberProblem Environment :=
  cs.foldlM (fun e c => e.fill h c) e

end Environment

/-- The tables of all classes once each is filled, with the reports on the members left out. -/
def Hierarchy.environment (h : Hierarchy) : Reported MemberProblem Environment :=
  (Environment.initial h).fillAll h h.order

end ClassCheck
