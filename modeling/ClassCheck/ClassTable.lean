import ClassCheck.Environment

/-! All that is known about the classes once their members are in place, and the relations between
types that follow from it. -/

namespace ClassCheck

structure ClassInfo extends ClassNode where
  ancestors : List ClassNode
  children : List ClassNode
  /-- Whose tables its own tables continue in. -/
  source : Option ClassNode
  own : Members
  above : List Members

namespace ClassInfo

def varChain (c : ClassInfo) : List (ScopeStack Symbol) := (c.own :: c.above).map (·.vars)

def methodChain (c : ClassInfo) : List (ScopeStack Signature) :=
  (c.own :: c.above).map (·.signatures)

def method? (c : ClassInfo) (name : String) : Option Signature :=
  ScopeStack.lookup c.methodChain name

def field? (c : ClassInfo) (name : String) : Option Symbol :=
  ScopeStack.lookup c.varChain (Members.selfKey name)

def upward (c : ClassInfo) : List ClassNode := c.toClassNode :: c.ancestors

def descendsFrom (c ancestor : ClassInfo) : Bool := c.upward.any (·.name == ancestor.name)

def lineage (c : ClassInfo) : String := "->".intercalate (c.upward.reverse.map (·.name))

end ClassInfo

def Environment.classInfo (e : Environment) (h : Hierarchy) (c : ClassNode) : ClassInfo :=
  { c with
    ancestors := h.ancestors c
    children := h.children c
    source := (h.sources c).head?
    own := e.members (h.number c)
    above := e.above h c }

structure ClassTable where
  root : ClassInfo
  others : List ClassInfo

namespace ClassTable

def ofEnvironment (e : Environment) (h : Hierarchy) : ClassTable :=
  ⟨e.classInfo h Hierarchy.root, h.others.map (e.classInfo h)⟩

def classes (t : ClassTable) : List ClassInfo := t.root :: t.others

def find? (t : ClassTable) (name : String) : Option ClassInfo := t.classes.find? (·.name == name)

def parent? (t : ClassTable) (c : ClassInfo) : Option ClassInfo := c.parent.bind t.find?

def knows (t : ClassTable) (ty : Ty) : Bool := ty.isKnown (t.classes.map (·.name))

def canReturn (t : ClassTable) (ty : Ty) : Bool := ty.isVoid || t.knows ty

def named? (t : ClassTable) (ty : Ty) : Option ClassInfo :=
  if ty.isClass then t.find? ty.name else none

/-- Whether a value of type `sub` may stand where `sup` is expected. Every reference type is below
the root class, and arrays are ordered as their elements are. -/
def isSubtype (t : ClassTable) (sub sup : Ty) : Bool :=
  if sub = sup then true
  else if !sub.isReference || !sup.isReference then false
  else if sup = t.root.type then true
  else if sub.isArray ≠ sup.isArray then false
  else
    match t.find? sub.name, t.find? sup.name with
    | some c, some d => c.descendsFrom d
    | _, _ => false

def accepts (t : ClassTable) (target source : Ty) : Bool :=
  if target.isError || source.isError then true
  else if source.isVoid || target.isVoid then false
  else if source.isNull then target.isReference
  else t.isSubtype source target

def comparable (t : ClassTable) (left right : Ty) : Bool :=
  if left.isError || right.isError then true
  else if left.isVoid || right.isVoid then false
  else if left = right then true
  else if left.isNull then right.isReference
  else if right.isNull then left.isReference
  else t.isSubtype left right || t.isSubtype right left

end ClassTable

end ClassCheck
