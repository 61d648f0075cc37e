import ClassCheck.ClassTable

/-! The entry point: one class has to declare a method, itself and not by inheritance, that takes
no arguments and returns nothing. -/

namespace ClassCheck

/-- Names of the entry class and method; an empty name means the usual one. -/
structure EntryPoint where
  className : String
  methodName : String

namespace EntryPoint

def ofNames (className methodName : String) : EntryPoint :=
  ⟨if className = "" then "Main" else className, if methodName = "" then "main" else methodName⟩

end EntryPoint

inductive EntryProblem where
  | noClass (entry : EntryPoint)
  | noMethod (entry : EntryPoint)
  | takesArguments (entry : EntryPoint)
  | notVoid (entry : EntryPoint)

namespace EntryProblem

def kind : EntryProblem → Diagnostic.Kind
  | noClass _ | noMethod _ => .missingMain
  | takesArguments _ | notVoid _ => .malformedMain

def message : EntryProblem → String
  | noClass e => s!"no class '{e.className}' defined"
  | noMethod e => s!"no '{e.methodName}' method defined in the '{e.className}' class"
  | takesArguments e => s!"'{e.methodName}' method in class '{e.className}' cannot take arguments"
  | notVoid e => s!"'{e.methodName}' method in class '{e.className}' must be void"

instance : Explained EntryProblem := ⟨kind, fun _ => .none, message⟩

end EntryProblem

def EntryPoint.problems (entry : EntryPoint) (t : ClassTable) : List (Located EntryProblem) :=
  match t.find? entry.className with
  | none => [⟨"", -1, .noClass entry⟩]
  | some c =>
      match c.own.signatures.peek entry.methodName with
      | none => [⟨c.decl.file, c.decl.line, .noMethod entry⟩]
      | some sig =>
          (if sig.params.isEmpty then [] else [⟨c.decl.file, sig.line, .takesArguments entry⟩]) ++
          (if sig.returnType = .void then [] else [⟨c.decl.file, sig.line, .notVoid entry⟩])

end ClassCheck
