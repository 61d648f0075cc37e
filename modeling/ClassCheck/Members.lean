import ClassCheck.Hierarchy
import ClassCheck.Scope
import ClassCheck.Symbol

/-! The members of a class, and the checks that a field or a method has to pass before it is entered
among them. -/

namespace ClassCheck

def isReserved (name : String) : Bool := name == "this" || name == "super" || name == "null"

inductive Mismatch where
  | returnTypes
  | formalCounts
  | formalTypes
deriving DecidableEq

def Mismatch.text : Mismatch → String
  | returnTypes => "return types differ"
  | formalCounts => "formal counts differ"
  | formalTypes => "formal types differ"

def Signature.mismatch? (s inherited : Signature) : Option Mismatch :=
  if s.returnType ≠ inherited.returnType then some .returnTypes
  else if s.params.length ≠ inherited.params.length then some .formalCounts
  else if s.params ≠ inherited.params then some .formalTypes
  else none

inductive MemberProblem where
  | reservedField (name : String)
  | duplicateField (name className : String)
  | undefinedFieldType (type : Ty) (name : String)
  | reservedMethod (name : String)
  | duplicateMethod (name className : String)
  | undefinedReturnType (type : Ty) (name : String)
  | overload (name className : String) (inherited : Signature) (mismatch : Mismatch)

namespace MemberProblem

def kind : MemberProblem → Diagnostic.Kind
  | reservedField _ | reservedMethod _ => .reservedIdentifier
  | duplicateField .. | duplicateMethod .. => .duplicateDefinition
  | undefinedFieldType .. | undefinedReturnType .. => .undefinedType
  | overload .. => .illegalOverload

def message : MemberProblem → String
  | reservedField name => s!"fields cannot be named '{name}'"
  | duplicateField name className => s!"field '{name}' is already defined in class '{className}'"
  | undefinedFieldType type name => s!"type '{type.text}' of field '{name}' is undefined"
  | reservedMethod name => s!"methods cannot be named '{name}'"
  | duplicateMethod name className => s!"method '{name}' is already defined in class '{className}'"
  | undefinedReturnType type name => s!"return type '{type.text}' of method '{name}' is undefined"
  | overload name className inherited mismatch =>
      s!"method '{name}' in class '{className}' overloads '{inherited.text}' " ++
        s!"inherited from '{inherited.owner}': {mismatch.text}"

instance : Explained MemberProblem := ⟨kind, fun _ => .none, message⟩

end MemberProblem

/-- The members a class declares: lists in the order of declaration, and tables to search. A field
is entered under its name and under its name after `this.`. -/
structure Members where
  fields : List Symbol
  methods : List Signature
  vars : ScopeStack Symbol
  signatures : ScopeStack Signature

namespace Members

def empty : Members := ⟨[], [], ScopeStack.empty.enter, ScopeStack.empty.enter⟩

def selfKey (name : String) : String := "this." ++ name

def addField (m : Members) (s : Symbol) : Members :=
  { m with
    fields := m.fields ++ [s]
    vars := (m.vars.add s.name s).add (selfKey s.name) s }

def addMethod (m : Members) (s : Signature) : Members :=
  { m with
    methods := m.methods ++ [s]
    signatures := m.signatures.add s.name s }

def signature (c : ClassNode) (m : Method) : Signature :=
  ⟨m.name, m.returnType, m.formals.map (·.type), c.name, m.line⟩

def canReturn (h : Hierarchy) (t : Ty) : Bool := t.isVoid || h.knows t

end Members

def Field.symbol (f : Field) : Symbol := ⟨f.name, .field, f.type⟩

def Field.vet (f : Field) (h : Hierarchy) (c : ClassNode) (taken : Option Symbol) :
    Except MemberProblem Symbol :=
  if isReserved f.name then .error (.reservedField f.name)
  else if taken.isSome then .error (.duplicateField f.name c.name)
  else if !h.knows f.type then .error (.undefinedFieldType f.type f.name)
  else .ok f.symbol

/-- What is entered for a method of `c`. Overloading is not allowed: if the class sees another
method of that name, the new one has to repeat its signature. -/
def Method.vet (d : Method) (h : Hierarchy) (c : ClassNode) (taken seen : Option Signature) :
    Except MemberProblem Signature :=
  if isReserved d.name then .error (.reservedMethod d.name)
  else if taken.isSome then .error (.duplicateMethod d.name c.name)
  else if !Members.canReturn h d.returnType then
    .error (.undefinedReturnType d.returnType d.name)
  else
    let sig := Members.signature c d
    match seen with
    | none => .ok sig
    | some inherited =>
        match sig.mismatch? inherited with
        | some mismatch => .error (.overload d.name c.name inherited mismatch)
        | none => .ok sig

end ClassCheck
