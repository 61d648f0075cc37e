import ClassCheck.Ty

/-! What names stand for: variables of several kinds, and methods with their signatures. -/

namespace ClassCheck

inductive SymbolKind where
  | field
  | method
  | formal
  | localVariable
  | unassigned (code : Int)
deriving DecidableEq

namespace SymbolKind

def ofCode : Int → SymbolKind
  | 0 => field
  | 1 => method
  | 2 => formal
  | 3 => localVariable
  | code => unassigned code

def text : SymbolKind → String
  | field => "field"
  | method => "method"
  | formal => "formal"
  | localVariable => "local variable"
  | unassigned _ => "unknown"

end SymbolKind

structure Symbol where
  name : String
  kind : SymbolKind
  type : Ty
deriving DecidableEq

structure Signature where
  name : String
  returnType : Ty
  params : List Ty
  owner : String
  line : Int
deriving DecidableEq

namespace Signature

def text (s : Signature) : String :=
  s.returnType.text ++ " " ++ s.name ++ "(" ++ ", ".intercalate (s.params.map Ty.text) ++ ")"

/-- The part that a redeclaration must repeat exactly: the return type and the formal types. -/
def agrees (s t : Signature) : Bool := s.returnType == t.returnType && s.params == t.params

end Signature

end ClassCheck
