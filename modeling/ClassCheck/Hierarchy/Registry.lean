import ClassCheck.Program
import ClassCheck.Reported

/-! The classes that take part in an analysis: the built-in ones, then those of the program in the
order they are declared. A second class of the same name is refused. -/

namespace ClassCheck

inductive HierarchyProblem where
  | builtInRedefined (name : String)
  | redefined (name file : String) (line : Int)
  | missingParent (name parent : String)
  | sealedParent (name parent : String)
  | cycle (name : String)

namespace HierarchyProblem

def kind : HierarchyProblem → Diagnostic.Kind
  | builtInRedefined _ | redefined .. => .duplicateDefinition
  | missingParent .. | sealedParent .. | cycle _ => .illegalInheritance

def reason : HierarchyProblem → Diagnostic.Reason
  | builtInRedefined _ | redefined .. => .none
  | missingParent .. => .missingParent
  | sealedParent .. => .sealedParent
  | cycle _ => .cycle

def message : HierarchyProblem → String
  | builtInRedefined name => s!"built-in class '{name}' cannot be redefined"
  | redefined name file line => s!"class '{name}' is already defined at {file}:{line}"
  | missingParent name parent => s!"class '{name}' extends undefined class '{parent}'"
  | sealedParent name parent => s!"class '{name}' cannot extend sealed class '{parent}'"
  | cycle name => s!"inheritance cycle detected involving class '{name}'"

instance : Explained HierarchyProblem := ⟨kind, reason, message⟩

end HierarchyProblem

/-- Where a class comes from. Library classes are built in and sealed; the root is built in and may
be extended. -/
inductive Origin where
  | root
  | library
  | user
deriving DecidableEq

structure Registered where
  decl : ClassDecl
  origin : Origin

namespace Registered

def name (c : Registered) : String := c.decl.name

def isRoot (c : Registered) : Bool := c.origin == .root

def isBuiltIn (c : Registered) : Bool := c.origin != .user

def isExtendable (c : Registered) : Bool := c.origin != .library

def type (c : Registered) : Ty := Ty.plain c.name

end Registered

namespace BuiltIn

def rootName : String := "Object"

def stringName : String := "String"

def formal (type name : String) : Formal := ⟨0, name, Ty.parse type⟩

def method (returnType name : String) (formals : List Formal) : Option Member :=
  some (.method ⟨0, name, Ty.parse returnType, formals, [.ret 0 .absent]⟩)

def classDecl (name parent : String) (members : List (Option Member)) : ClassDecl :=
  ⟨"<built-in class>", 0, name, parent, members⟩

def root : Registered where
  origin := .root
  decl := classDecl rootName "" [method "Object" "clone" []]

def string : Registered where
  origin := .library
  decl := classDecl stringName rootName [
    method "int" "length" [],
    method "boolean" "equals" [formal "Object" "str"],
    method "String" "substring" [formal "int" "beginIndex", formal "int" "endIndex"],
    method "String" "concat" [formal "String" "str"]]

def console : Registered where
  origin := .library
  decl := classDecl "TextIO" rootName [
    method "void" "readStdin" [],
    method "void" "readFile" [formal "String" "readFile"],
    method "void" "writeStdout" [],
    method "void" "writeStderr" [],
    method "void" "writeFile" [formal "String" "writeFile"],
    method "String" "getString" [],
    method "int" "getInt" [],
    method "TextIO" "putString" [formal "String" "str"],
    method "TextIO" "putInt" [formal "int" "n"]]

def system : Registered where
  origin := .library
  decl := classDecl "Sys" rootName [method "void" "exit" [formal "int" "status"]]

end BuiltIn

structure Registry where
  others : List Registered

namespace Registry

def builtIn : Registry := ⟨[BuiltIn.string, BuiltIn.console, BuiltIn.system]⟩

def classes (r : Registry) : List Registered := BuiltIn.root :: r.others

def find? (r : Registry) (name : String) : Option Registered := r.classes.find? (·.name == name)

def add (r : Registry) (c : Registered) : Registry := ⟨r.others ++ [c]⟩

def redefinition (old : Registered) : HierarchyProblem :=
  if old.isBuiltIn then .builtInRedefined old.name
  else .redefined old.name old.decl.file old.decl.line

/-- Takes in the classes of a program; of several with one name, the first. -/
def register (r : Registry) : List (Option ClassDecl) → Reported HierarchyProblem Registry
  | [] => pure r
  | none :: rest => r.register rest
  | some d :: rest =>
      match r.find? d.name with
      | none => (r.add ⟨d, .user⟩).register rest
      | some old => do
          Reported.report d.file d.line (redefinition old)
          r.register rest

def ofProgram (p : Option Program) : Reported HierarchyProblem Registry :=
  builtIn.register ((p.map (·.classes)).getD [])

end Registry

end ClassCheck
