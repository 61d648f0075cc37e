import ClassCheck.Diagnostic
import ClassCheck.Operator
import ClassCheck.Symbol

/-! What may go wrong in the members of a class. -/

namespace ClassCheck

inductive Conditional where
  | ifElse
  | whileLoop
  | forLoop
deriving DecidableEq

def Conditional.text : Conditional → String
  | ifElse => "if"
  | whileLoop => "while"
  | forLoop => "for"

inductive TypingProblem where
  | reservedName (kind : SymbolKind) (name : String)
  | duplicateName (kind : SymbolKind) (name : String)
  | undefinedType (type : Ty) (kind : SymbolKind) (name : String)
  | fieldInitVoid (name : String)
  | fieldInitMismatch (name : String) (declared actual : Ty)
  | variableInitVoid (name : String)
  | variableInitMismatch (name : String) (declared actual : Ty)
  | notAStatement
  | conditionNotBoolean (place : Conditional) (actual : Ty)
  | breakOutsideLoop
  | returnsNothing (method : String) (expected : Ty)
  | returnsFromVoid (method : String)
  | returnsVoid (method : String)
  | returnMismatch (method : String) (actual expected : Ty)
  | undeclaredVariable (name : String)
  | noField (name className : String)
  | arrayMember (name : String)
  | fieldAccess (name : String)
  | indexNotInt (actual : Ty)
  | notAnArray (name : String) (actual : Ty)
  | notCallable (method : String) (receiver : Ty)
  | noMethod (method className : String)
  | argumentCount (method : String) (expected actual : Nat)
  | argumentVoid (position : Nat) (method : String)
  | argumentMismatch (position : Nat) (method : String) (actual expected : Ty)
  | undefinedClass (className : String)
  | undefinedElement (elemName : String)
  | sizeNotInt (actual : Ty)
  | instanceOfTarget (target : Ty)
  | instanceOfUndefined (target : Ty)
  | instanceOfOperand (actual : Ty)
  | castTarget (target : Ty)
  | castUndefined (target : Ty)
  | castOperand (actual target : Ty)
  | castUnrelated (actual target : Ty)
  | assignQualifier (name : String)
  | assignVoid (name : String)
  | assignMismatch (actual : Ty) (name : String) (target : Ty)
  | operandsNotInt (op : BinaryOp) (left right : Ty)
  | operandsNotBoolean (op : BinaryOp) (left right : Ty)
  | notComparable (left right : Ty) (op : BinaryOp)
  | unknownBinary (op : BinaryOp)
  | operandNotInt (op : UnaryOp) (actual : Ty)
  | operandNotBoolean (op : UnaryOp) (actual : Ty)
  | operandNotVariable (op : UnaryOp)
  | unknownUnary (op : UnaryOp)

namespace TypingProblem

def kind : TypingProblem → Diagnostic.Kind
  | reservedName .. => .reservedIdentifier
  | duplicateName .. => .duplicateDefinition
  | undefinedType .. | undefinedClass _ | undefinedElement _ | instanceOfUndefined _
  | castUndefined _ => .undefinedType
  | undeclaredVariable _ | noField .. | noMethod .. => .undefinedSymbol
  | notAStatement => .illegalStatement
  | breakOutsideLoop => .invalidBreak
  | castTarget _ | castOperand .. | castUnrelated .. => .invalidCast
  | arrayMember _ | fieldAccess _ | notCallable .. | instanceOfTarget _ | assignQualifier _
  | unknownBinary _ | operandNotVariable _ | unknownUnary _ => .invalidOperator
  | fieldInitVoid _ | fieldInitMismatch .. | variableInitVoid _ | variableInitMismatch ..
  | conditionNotBoolean .. | returnsNothing .. | returnsFromVoid _ | returnsVoid _
  | returnMismatch .. | indexNotInt _ | notAnArray .. | argumentCount .. | argumentVoid ..
  | argumentMismatch .. | sizeNotInt _ | instanceOfOperand _ | assignVoid _ | assignMismatch ..
  | operandsNotInt .. | operandsNotBoolean .. | notComparable .. | operandNotInt ..
  | operandNotBoolean .. => .typeMismatch

def message : TypingProblem → String
  | reservedName kind name => s!"{kind.text}s cannot be named '{name}'"
  | duplicateName kind name => s!"{kind.text} '{name}' is already defined in this scope"
  | undefinedType type kind name => s!"type '{type.text}' of {kind.text} '{name}' is undefined"
  | fieldInitVoid name => s!"initializer of field '{name}' cannot be void"
  | fieldInitMismatch name declared actual =>
      s!"cannot initialize field '{name}' of type '{declared.text}' with '{actual.text}'"
  | variableInitVoid name => s!"initializer of variable '{name}' cannot be void"
  | variableInitMismatch name declared actual =>
      s!"cannot initialize variable '{name}' of type '{declared.text}' with '{actual.text}'"
  | notAStatement => "expression is not a statement"
  | conditionNotBoolean place actual =>
      s!"{place.text} condition must be boolean, got '{actual.text}'"
  | breakOutsideLoop => "break statement outside of a loop"
  | returnsNothing method expected =>
      s!"method '{method}' must return a value of type '{expected.text}'"
  | returnsFromVoid method => s!"void method '{method}' cannot return a value"
  | returnsVoid method => s!"method '{method}' cannot return a void expression"
  | returnMismatch method actual expected =>
      s!"method '{method}' returns '{actual.text}', " ++
        s!"but its declared return type is '{expected.text}'"
  | undeclaredVariable name => s!"undeclared variable '{name}'"
  | noField name className => s!"no field '{name}' in class '{className}'"
  | arrayMember name => s!"arrays only have a length member, not '{name}'"
  | fieldAccess name => s!"field '{name}' can only be accessed through this or super"
  | indexNotInt actual => s!"array index must be int, got '{actual.text}'"
  | notAnArray name actual => s!"'{name}' of type '{actual.text}' is not an array"
  | notCallable method receiver => s!"cannot call method '{method}' on type '{receiver.text}'"
  | noMethod method className => s!"no method '{method}' in class '{className}'"
  | argumentCount method expected actual =>
      s!"method '{method}' expects {expected} argument(s), got {actual}"
  | argumentVoid position method => s!"argument {position} of '{method}' cannot be void"
  | argumentMismatch position method actual expected =>
      s!"argument {position} of '{method}' has type '{actual.text}', expected '{expected.text}'"
  | undefinedClass className => s!"cannot instantiate undefined class '{className}'"
  | undefinedElement elemName => s!"array element type '{elemName}' is undefined"
  | sizeNotInt actual => s!"array size must be int, got '{actual.text}'"
  | instanceOfTarget target => s!"instanceof needs a class or array type, got '{target.text}'"
  | instanceOfUndefined target => s!"instanceof type '{target.text}' is undefined"
  | instanceOfOperand actual =>
      s!"instanceof cannot be applied to an expression of type '{actual.text}'"
  | castTarget target => s!"cannot cast to non-reference type '{target.text}'"
  | castUndefined target => s!"cast type '{target.text}' is undefined"
  | castOperand actual target =>
      s!"cannot cast expression of type '{actual.text}' to '{target.text}'"
  | castUnrelated actual target => s!"cannot cast '{actual.text}' to unrelated type '{target.text}'"
  | assignQualifier name => s!"only this or super may qualify the assignment to '{name}'"
  | assignVoid name => s!"cannot assign a void expression to '{name}'"
  | assignMismatch actual name target =>
      s!"cannot assign '{actual.text}' to '{name}' of type '{target.text}'"
  | operandsNotInt op left right =>
      s!"operator '{op.text}' needs int operands, got '{left.text}' and '{right.text}'"
  | operandsNotBoolean op left right =>
      s!"operator '{op.text}' needs boolean operands, got '{left.text}' and '{right.text}'"
  | notComparable left right op =>
      s!"cannot compare '{left.text}' and '{right.text}' with '{op.text}'"
  | unknownBinary op => s!"unknown binary operator '{op.text}'"
  | operandNotInt op actual => s!"operator '{op.text}' needs an int operand, got '{actual.text}'"
  | operandNotBoolean op actual =>
      s!"operator '{op.text}' needs a boolean operand, got '{actual.text}'"
  | operandNotVariable op => s!"operator '{op.text}' needs a variable or an array element"
  | unknownUnary op => s!"unknown unary operator '{op.text}'"

instance : Explained TypingProblem := ⟨kind, fun _ => .none, message⟩

end TypingProblem

end ClassCheck
