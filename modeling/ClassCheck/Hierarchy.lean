import ClassCheck.Hierarchy.Registry

/-! The class hierarchy. Each class is linked to its declared parent, unless that parent is
undefined, sealed, or reached by a chain of declared parents that leads back to the class. A class
without a link heads a tree of its own. -/

namespace ClassCheck

structure ClassNode extends Registered where
  parent : Option String

namespace Registered

def wantedParent (c : Registered) : String :=
  if c.decl.parent = "" then BuiltIn.rootName else c.decl.parent

end Registered

namespace Registry

/-- At most `n` classes from `c` on along declared parents, up to the root or to a name that is not
registered. -/
def wantedChain (r : Registry) : Nat → Registered → List Registered
  | 0, _ => []
  | n + 1, c =>
      if c.isRoot then []
      else c :: ((r.find? c.wantedParent).map (r.wantedChain n)).getD []

/-- Whether declared parents lead from `start` to `target`. A chain that goes on for more steps than
there are classes has met all it ever meets. -/
def leadsTo (r : Registry) (start target : Registered) : Bool :=
  (r.wantedChain r.classes.length start).any (·.name == target.name)

def resolveParent (r : Registry) (c : Registered) : Except HierarchyProblem Registered :=
  match r.find? c.wantedParent with
  | none => .error (.missingParent c.name c.wantedParent)
  | some p =>
      if !p.isExtendable then .error (.sealedParent c.name c.wantedParent)
      else if r.leadsTo p c then .error (.cycle c.name)
      else .ok p

def link (r : Registry) (c : Registered) : Reported HierarchyProblem ClassNode :=
  match r.resolveParent c with
  | .ok p => pure { c with parent := some p.name }
  | .error problem => do
      Reported.report c.decl.file c.decl.line problem
      pure { c with parent := none }

end Registry

structure Hierarchy where
  others : List ClassNode

namespace Hierarchy

def root : ClassNode := { BuiltIn.root with parent := none }

def ofRegistry (r : Registry) : Reported HierarchyProblem Hierarchy := do
  let others ← Reported.forEach r.others r.link
  pure ⟨others⟩

def classes (h : Hierarchy) : List ClassNode := root :: h.others

def size (h : Hierarchy) : Nat := h.classes.length

def find? (h : Hierarchy) (name : String) : Option ClassNode := h.classes.find? (·.name == name)

def knows (h : Hierarchy) (t : Ty) : Bool := t.isKnown (h.classes.map (·.name))

def parent? (h : Hierarchy) (c : ClassNode) : Option ClassNode := c.parent.bind h.find?

def adopt (lists : String → List ClassNode) (c : ClassNode) : String → List ClassNode :=
  match c.parent with
  | none => lists
  | some p => fun name => if name = p then lists name ++ [c] else lists name

def childLists (h : Hierarchy) : String → List ClassNode := h.others.foldl adopt fun _ => []

def children (h : Hierarchy) (c : ClassNode) : List ClassNode := h.childLists c.name

def ancestorsWithin (h : Hierarchy) : Nat → ClassNode → List ClassNode
  | 0, _ => []
  | n + 1, c =>
      match h.parent? c with
      | none => []
      | some p => p :: h.ancestorsWithin n p

def ancestors (h : Hierarchy) (c : ClassNode) : List ClassNode := h.ancestorsWithin h.size c

/-- The other classes whose members `c` sees: its ancestors, and then the root if no link leads
there. -/
def sources (h : Hierarchy) (c : ClassNode) : List ClassNode :=
  let up := h.ancestors c
  if (c :: up).any (·.isRoot) then up else up ++ [root]

/-- Goes through a growing list from place `i` on, for at most `n` places, and appends the children
of each class it meets. -/
def spread (h : Hierarchy) : Nat → Nat → List ClassNode → List ClassNode
  | 0, _, list => list
  | n + 1, i, list =>
      match list[i]? with
      | none => list
      | some c => h.spread n (i + 1) (list ++ h.children c)

def appendTree (h : Hierarchy) (list : List ClassNode) (top : ClassNode) : List ClassNode :=
  if top.parent.isSome then list else h.spread h.size list.length (list ++ [top])

/-- Every class after its parent: tree by tree, and within a tree level by level. -/
def order (h : Hierarchy) : List ClassNode := h.classes.foldl h.appendTree []

end Hierarchy

end ClassCheck
