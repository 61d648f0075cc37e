/-! Diagnostics: what is wrong, where, and how it is put into words. Kinds, reasons and severities
are numbered; a number that stands for nothing keeps its place and has a text of its own. -/

namespace ClassCheck

namespace Diagnostic

inductive Kind where
  | duplicateDefinition
  | undefinedType
  | undefinedSymbol
  | illegalInheritance
  | illegalOverload
  | reservedIdentifier
  | typeMismatch
  | invalidOperator
  | invalidCast
  | invalidBreak
  | illegalStatement
  | missingMain
  | malformedMain
  | unassigned (code : Int)
deriving DecidableEq

namespace Kind

def ofCode : Int → Kind
  | 0 => duplicateDefinition
  | 1 => undefinedType
  | 2 => undefinedSymbol
  | 3 => illegalInheritance
  | 4 => illegalOverload
  | 5 => reservedIdentifier
  | 6 => typeMismatch
  | 7 => invalidOperator
  | 8 => invalidCast
  | 9 => invalidBreak
  | 10 => illegalStatement
  | 11 => missingMain
  | 12 => malformedMain
  | code => unassigned code

def text : Kind → String
  | duplicateDefinition => "DuplicateDefinition"
  | undefinedType => "UndefinedType"
  | undefinedSymbol => "UndefinedSymbol"
  | illegalInheritance => "IllegalInheritance"
  | illegalOverload => "IllegalOverload"
  | reservedIdentifier => "ReservedIdentifier"
  | typeMismatch => "TypeMismatch"
  | invalidOperator => "InvalidOperator"
  | invalidCast => "InvalidCast"
  | invalidBreak => "InvalidBreak"
  | illegalStatement => "IllegalStatement"
  | missingMain => "MissingMain"
  | malformedMain => "MalformedMain"
  | unassigned _ => "Unknown"

end Kind

inductive Reason where
  | none
  | missingParent
  | sealedParent
  | cycle
  | unassigned (code : Int)
deriving DecidableEq

namespace Reason

def ofCode : Int → Reason
  | 0 => none
  | 1 => missingParent
  | 2 => sealedParent
  | 3 => cycle
  | code => unassigned code

def text : Reason → String
  | missingParent => "missing-parent"
  | sealedParent => "sealed-parent"
  | cycle => "cycle"
  | none | unassigned _ => ""

end Reason

inductive Severity where
  | semanticError
  | unassigned (code : Int)
deriving DecidableEq

namespace Severity

def ofCode : Int → Severity
  | 0 => semanticError
  | code => unassigned code

def text : Severity → String
  | semanticError => "semantic error"
  | unassigned _ => "unknown"

end Severity

end Diagnostic

/-- A problem found in a program. A negative line means that it has no place in a file. -/
structure Diagnostic where
  severity : Diagnostic.Severity
  kind : Diagnostic.Kind
  reason : Diagnostic.Reason
  file : String
  line : Int
  message : String
deriving DecidableEq

namespace Diagnostic

def origin (d : Diagnostic) : String :=
  if d.line < 0 then
    if d.file = "" then "" else d.file ++ ": "
  else
    d.file ++ ":" ++ toString d.line ++ ": "

def text (d : Diagnostic) : String := d.origin ++ d.severity.text ++ ": " ++ d.message

def tally (ds : List Diagnostic) (kind : Kind) : Nat := ds.countP (·.kind == kind)

def listing (ds : List Diagnostic) : String := "\n".intercalate (ds.map text)

def summary (ds : List Diagnostic) : String :=
  "\n".intercalate ((toString ds.length ++ " semantic error(s) found") :: ds.map ("  " ++ ·.text))

end Diagnostic

/-- A kind of error that wraps others: one more is appended to an error, or to none at all. -/
structure MultiError (ε : Type) where
  append : Option ε → Diagnostic → ε
  wrapped : ε → List Diagnostic

namespace MultiError

/-- The given error comes last among the wrapped ones. -/
structure Appends {ε : Type} (errors : MultiError ε) : Prop where
  wrapped_append : ∀ e d, errors.wrapped (errors.append e d) =
    (e.map errors.wrapped).getD [] ++ [d]

def plain : MultiError (List Diagnostic) := ⟨fun ds d => ds.getD [] ++ [d], id⟩

def fold {ε : Type} (errors : MultiError ε) (ds : List Diagnostic) : Option ε :=
  ds.foldl (fun e d => some (errors.append e d)) none

def message {ε : Type} (errors : MultiError ε) (e : ε) : String :=
  Diagnostic.summary (errors.wrapped e)

end MultiError

structure Located (π : Type) where
  file : String
  line : Int
  problem : π

class Explained (π : Type) where
  kind : π → Diagnostic.Kind
  reason : π → Diagnostic.Reason
  message : π → String

def Located.diagnostic {π : Type} [Explained π] (l : Located π) : Diagnostic where
  severity := .semanticError
  kind := Explained.kind l.problem
  reason := Explained.reason l.problem
  file := l.file
  line := l.line
  message := Explained.message l.problem

end ClassCheck
