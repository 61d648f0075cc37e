/-! Types are names with an array mark. Special types are recognised by their names, so a type
says nothing about which classes exist. -/

namespace ClassCheck

@[ext] structure Ty where
  name : String
  isArray : Bool
deriving DecidableEq

namespace Ty

def plain (name : String) : Ty := ⟨name, false⟩

def int : Ty := plain "int"
def boolean : Ty := plain "boolean"
def void : Ty := plain "void"
def null : Ty := plain "null"

/-- The type of an expression that failed to check. It agrees with every other type, so that one
mistake is reported once. -/
def error : Ty := plain "<error>"

def arrayOf (t : Ty) : Ty := ⟨t.name, true⟩

def elem (t : Ty) : Ty := plain t.name

def text (t : Ty) : String := if t.isArray then t.name ++ "[]" else t.name

/-- One closing pair of brackets marks an array; any further pair belongs to the name. -/
def parse (s : String) : Ty :=
  match s.toList.reverse with
  | ']' :: '[' :: stem => ⟨String.ofList stem.reverse, true⟩
  | _ => plain s

def isPrimitiveName (name : String) : Bool := name == "int" || name == "boolean"

def isSpecialName (name : String) : Bool :=
  isPrimitiveName name || name == "void" || name == "null" || name == "<error>"

def isPrimitive (t : Ty) : Bool := !t.isArray && isPrimitiveName t.name

def isVoid (t : Ty) : Bool := t == void

def isNull (t : Ty) : Bool := t == null

/-- The array mark does not matter here: an array of erroneous elements is erroneous too. -/
def isError (t : Ty) : Bool := t.name == "<error>"

def isClass (t : Ty) : Bool := !t.isArray && !isSpecialName t.name

def isReference (t : Ty) : Bool := t.isArray || t.isClass

def fitsInt (t : Ty) : Bool := t == int || t.isError

def fitsBoolean (t : Ty) : Bool := t == boolean || t.isError

def isKnown (classNames : List String) (t : Ty) : Bool :=
  isPrimitiveName t.name || classNames.contains t.name

end Ty

end ClassCheck
