import ClassCheck.ClassTable
import ClassCheck.Typing.Problem

/-! The rules of typing, one for each form of expression. A rule is given the types of the parts,
reports what is wrong, and gives the type of the whole. -/

namespace ClassCheck

structure Context where
  table : ClassTable
  self : ClassInfo

abbrev Vars := List (ScopeStack Symbol)

abbrev Judged := Reported TypingProblem

namespace Context

def parent? (cx : Context) : Option ClassInfo := cx.table.parent? cx.self

def report (cx : Context) (line : Int) (problem : TypingProblem) : Judged Unit :=
  Reported.report cx.self.decl.file line problem

def refuse (cx : Context) (line : Int) (problem : TypingProblem) : Judged Ty := do
  cx.report line problem
  pure .error

def require (cx : Context) (ok : Bool) (line : Int) (problem : TypingProblem) : Judged Unit :=
  if ok then pure () else cx.report line problem

/-! ### Names -/

def variableType (cx : Context) (vars : Vars) (line : Int) (name : String) : Judged Ty :=
  match ScopeStack.lookup vars name with
  | some s => pure s.type
  | none => cx.refuse line (.undeclaredVariable name)

def fieldType (cx : Context) (owner : ClassInfo) (line : Int) (name : String) : Judged Ty :=
  match owner.field? name with
  | some s => pure s.type
  | none => cx.refuse line (.noField name owner.name)

/-- The type of a name that stands alone. Above a class without a link there is nothing to report:
the link has been reported. -/
def nameType (cx : Context) (vars : Vars) (line : Int) (name : String) : Judged Ty :=
  if name = "this" then pure cx.self.type
  else if name = "super" then pure ((cx.parent?.map (·.type)).getD .error)
  else if name = "null" then pure .null
  else cx.variableType vars line name

/-- The class whose fields a receiver gives access to. Only the object itself does, as an object of
its class or of the class above. -/
def fieldOwner? (cx : Context) : Expr → Option ClassInfo
  | .var _ .absent name =>
      if name = "this" then some cx.self
      else if name = "super" then cx.parent?
      else none
  | _ => none

def receiverField (cx : Context) (line : Int) (receiver : Expr) (name : String) : Judged Ty :=
  match cx.fieldOwner? receiver with
  | some owner => cx.fieldType owner line name
  | none => cx.refuse line (.fieldAccess name)

def memberType (cx : Context) (line : Int) (receiver : Expr) (receiverType : Ty) (name : String) :
    Judged Ty :=
  if receiverType.isError then pure .error
  else if receiverType.isArray then
    if name = "length" then pure .int else cx.refuse line (.arrayMember name)
  else cx.receiverField line receiver name

def varType (cx : Context) (vars : Vars) (line : Int) (receiver : Expr) (receiverType : Ty)
    (name : String) : Judged Ty :=
  if receiver.isAbsent then cx.nameType vars line name
  else cx.memberType line receiver receiverType name

/-! ### Elements of arrays -/

def indexedType (cx : Context) (vars : Vars) (line : Int) (receiver : Expr) (receiverType : Ty)
    (name : String) : Judged Ty :=
  if receiver.isAbsent then cx.variableType vars line name
  else if receiverType.isError then pure .error
  else cx.receiverField line receiver name

def indexed (cx : Context) (index : Expr) (indexType : Ty) : Judged Unit :=
  cx.require indexType.fitsInt index.line (.indexNotInt indexType)

def elementType (cx : Context) (line : Int) (name : String) (base : Ty) : Judged Ty :=
  if base.isError then pure .error
  else if base.isArray then pure base.elem
  else cx.refuse line (.notAnArray name base)

/-! ### Method calls -/

/-- The class whose methods may be called on a receiver. Without one it is the class itself, and
arrays have the methods of the root. -/
def receiverClass (cx : Context) (line : Int) (receiver : Expr) (receiverType : Ty)
    (method : String) : Judged (Option ClassInfo) :=
  if receiver.isAbsent then pure (some cx.self)
  else if receiverType.isError then pure none
  else if receiverType.isArray then pure (some cx.table.root)
  else if receiverType.isClass then pure (cx.table.named? receiverType)
  else do
    cx.report line (.notCallable method receiverType)
    pure none

/-- Whether an argument has exactly the type of its parameter. Nothing is asked of an argument that
failed, or of a parameter of an unknown type. -/
def argument (cx : Context) (method : String) (position : Nat) (arg : Expr) (argType param : Ty) :
    Judged Bool :=
  if argType.isVoid then do
    cx.report arg.line (.argumentVoid position method)
    pure false
  else if argType.isError || !cx.table.knows param then pure true
  else if argType = param then pure true
  else do
    cx.report arg.line (.argumentMismatch position method argType param)
    pure false

def arguments (cx : Context) (method : String) :
    Nat → List (Expr × Ty) → List Ty → Judged Bool
  | position, (arg, argType) :: args, param :: params => do
      let fits ← cx.argument method position arg argType param
      let restFits ← cx.arguments method (position + 1) args params
      pure (fits && restFits)
  | _, _, _ => pure true

def callType (cx : Context) (line : Int) (receiver : Option ClassInfo) (method : String)
    (args : List (Expr × Ty)) : Judged Ty :=
  match receiver with
  | none => pure .error
  | some owner =>
      match owner.method? method with
      | none => cx.refuse line (.noMethod method owner.name)
      | some sig =>
          if args.length ≠ sig.params.length then
            cx.refuse line (.argumentCount method sig.params.length args.length)
          else do
            let fits ← cx.arguments method 1 args sig.params
            pure (if fits then sig.returnType else .error)

/-! ### Objects, arrays and casts -/

def objectType (cx : Context) (line : Int) (className : String) : Judged Ty :=
  if (cx.table.named? (.plain className)).isSome then pure (.plain className)
  else cx.refuse line (.undefinedClass className)

def arrayType (cx : Context) (line : Int) (elemName : String) (size : Expr) (sizeType : Ty) :
    Judged Ty := do
  let known := cx.table.knows (.plain elemName)
  cx.require known line (.undefinedElement elemName)
  cx.require sizeType.fitsInt size.line (.sizeNotInt sizeType)
  pure (if known && sizeType.fitsInt then (Ty.plain elemName).arrayOf else .error)

def askedFor (cx : Context) (line : Int) (target : Ty) : Judged Unit :=
  if !target.isReference then cx.report line (.instanceOfTarget target)
  else cx.require (cx.table.knows target) line (.instanceOfUndefined target)

def instanceOfType (cx : Context) (line : Int) (target : Ty) (operand : Expr) (operandType : Ty) :
    Judged Ty := do
  cx.askedFor line target
  cx.require (!(operandType.isVoid || operandType.isPrimitive)) operand.line
    (.instanceOfOperand operandType)
  pure .boolean

structure CastOutcome where
  type : Ty
  upcast : Option Bool

/-- A cast stays within one lineage. Toward an ancestor it always succeeds; toward a descendant it
is legal, and left to be checked when it is run. -/
def castType (cx : Context) (line : Int) (target operandType : Ty) : Judged CastOutcome :=
  let refused (problem : TypingProblem) : Judged CastOutcome := do
    let t ← cx.refuse line problem
    pure ⟨t, none⟩
  if !target.isReference then refused (.castTarget target)
  else if !cx.table.knows target then refused (.castUndefined target)
  else if operandType.isError then pure ⟨target, none⟩
  else if operandType.isNull then pure ⟨target, some true⟩
  else if !operandType.isReference then refused (.castOperand operandType target)
  else
    let up := cx.table.isSubtype operandType target
    if !up && !cx.table.isSubtype target operandType then
      refused (.castUnrelated operandType target)
    else pure ⟨target, some up⟩

/-! ### Assignments -/

def targetType (cx : Context) (vars : Vars) (line : Int) (qualifier name : String) : Judged Ty :=
  if qualifier = "" then cx.variableType vars line name
  else if qualifier = "this" then cx.fieldType cx.self line name
  else if qualifier = "super" then
    match cx.parent? with
    | none => pure .error
    | some owner => cx.fieldType owner line name
  else cx.refuse line (.assignQualifier name)

def targetElement (cx : Context) (line : Int) (name : String) (target : Ty) : Judged Ty :=
  if target.isArray then pure target.elem
  else do
    cx.require target.isError line (.notAnArray name target)
    pure .error

def assigned (cx : Context) (target : Ty) (value : Expr) (valueType : Ty) (name : String) :
    Judged Unit :=
  if valueType.isVoid then cx.report value.line (.assignVoid name)
  else cx.require (cx.table.accepts target valueType) value.line
    (.assignMismatch valueType name target)

/-! ### Operators -/

def binaryType (cx : Context) (line : Int) (op : BinaryOp) (left right : Ty) : Judged Ty :=
  match op.family with
  | .arithmetic =>
      if left.fitsInt && right.fitsInt then pure .int
      else cx.refuse line (.operandsNotInt op left right)
  | .relational => do
      cx.require (left.fitsInt && right.fitsInt) line (.operandsNotInt op left right)
      pure .boolean
  | .equality => do
      cx.require (cx.table.comparable left right) line (.notComparable left right op)
      pure .boolean
  | .logical => do
      cx.require (left.fitsBoolean && right.fitsBoolean) line (.operandsNotBoolean op left right)
      pure .boolean
  | .none => cx.refuse line (.unknownBinary op)

def unaryType (cx : Context) (line : Int) (op : UnaryOp) (storage : Bool) (operand : Ty) :
    Judged Ty :=
  match op with
  | .neg => if operand.fitsInt then pure .int else cx.refuse line (.operandNotInt op operand)
  | .not =>
      if operand.fitsBoolean then pure .boolean
      else cx.refuse line (.operandNotBoolean op operand)
  | .incr | .decr =>
      if !storage then cx.refuse line (.operandNotVariable op)
      else if operand.fitsInt then pure .int
      else cx.refuse line (.operandNotInt op operand)
  | .unknown => cx.refuse line (.unknownUnary op)

end Context

end ClassCheck
