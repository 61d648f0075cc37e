import ClassCheck.Typing.Notes
import ClassCheck.Typing.Rules

/-! Types of expressions. Parts are typed in source order, then the rule of the whole applies; the
type of a node is noted, and a node that has one already keeps it. -/

namespace ClassCheck

abbrev Check := StateT Notes Judged

namespace Check

def settle (e : Expr) (t : Ty) : Check Ty := fun n => pure (n.settled e t, n.record e t)

def markCast (e : Expr) (upcast : Option Bool) : Check Unit :=
  match upcast with
  | none => pure ()
  | some up => modify (·.markCast e up)

end Check

/-- Whether an expression denotes a place that can be stored to. The length of an array cannot. -/
def Notes.isStorage (n : Notes) : Expr → Bool
  | .element .. => true
  | .var _ .absent _ => true
  | .var _ receiver _ => !((n.typeOf? receiver).map (·.isArray)).getD false
  | _ => false

mutual

/-- Types an expression. An absent one has the error type, and nothing is noted about it. -/
def Context.infer (cx : Context) (vars : Vars) : Expr → Check Ty
  | .absent => pure .error
  | e@(.int ..) => Check.settle e .int
  | e@(.bool ..) => Check.settle e .boolean
  | e@(.str ..) => Check.settle e (.plain BuiltIn.stringName)
  | e@(.var site receiver name) => do
      let receiverType ← cx.infer vars receiver
      let t ← cx.varType vars site.line receiver receiverType name
      Check.settle e t
  | e@(.element site receiver name index) => do
      let receiverType ← cx.infer vars receiver
      let base ← cx.indexedType vars site.line receiver receiverType name
      let indexType ← cx.infer vars index
      cx.indexed index indexType
      let t ← cx.elementType site.line name base
      Check.settle e t
  | e@(.dispatch site receiver method args) => do
      let receiverType ← cx.infer vars receiver
      let owner ← cx.receiverClass site.line receiver receiverType method
      let argTypes ← cx.inferAll vars args
      let t ← cx.callType site.line owner method (args.zip argTypes)
      Check.settle e t
  | e@(.newObject site className) => do
      let t ← cx.objectType site.line className
      Check.settle e t
  | e@(.newArray site elemName size) => do
      let sizeType ← cx.infer vars size
      let t ← cx.arrayType site.line elemName size sizeType
      Check.settle e t
  | e@(.instanceOf site operand target) => do
      let operandType ← cx.infer vars operand
      let t ← cx.instanceOfType site.line target operand operandType
      Check.settle e t
  | e@(.cast site target operand) => do
      let operandType ← cx.infer vars operand
      let outcome ← cx.castType site.line target operandType
      Check.markCast e outcome.upcast
      Check.settle e outcome.type
  | e@(.assign site qualifier name value) => do
      let target ← cx.targetType vars site.line qualifier name
      let valueType ← cx.infer vars value
      cx.assigned target value valueType name
      Check.settle e target
  | e@(.assignElement site qualifier name index value) => do
      let target ← cx.targetType vars site.line qualifier name
      let indexType ← cx.infer vars index
      cx.indexed index indexType
      let elem ← cx.targetElement site.line name target
      let valueType ← cx.infer vars value
      cx.assigned elem value valueType name
      Check.settle e elem
  | e@(.binary site op left right) => do
      let leftType ← cx.infer vars left
      let rightType ← cx.infer vars right
      let t ← cx.binaryType site.line op leftType rightType
      Check.settle e t
  | e@(.unary site op _ operand) => do
      let operandType ← cx.infer vars operand
      let storage := (← get).isStorage operand
      let t ← cx.unaryType site.line op storage operandType
      Check.settle e t

def Context.inferAll (cx : Context) (vars : Vars) : List Expr → Check (List Ty)
  | [] => pure []
  | e :: es => do
      let t ← cx.infer vars e
      let ts ← cx.inferAll vars es
      pure (t :: ts)

end

end ClassCheck
