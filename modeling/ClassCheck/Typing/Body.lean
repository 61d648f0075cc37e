import ClassCheck.Typing.Infer

/-! Statements of a method body. A declaration binds its name from there on to the end of the
scope; blocks open scopes, and loops are kept track of for the sake of breaks. -/

namespace ClassCheck

structure MethodContext extends Context where
  methodName : String
  returnType : Ty

structure BodyState where
  notes : Notes
  locals : ScopeStack Symbol
  /-- The lines of the loops around, innermost first. -/
  loops : List Int

abbrev Body := StateT BodyState Judged

namespace Body

def openScope : Body Unit := modify fun s => { s with locals := s.locals.enter }

def closeScope : Body Unit := modify fun s => { s with locals := s.locals.exit }

def openLoop (line : Int) : Body Unit := modify fun s => { s with loops := line :: s.loops }

def closeLoop : Body Unit := modify fun s => { s with loops := s.loops.tail }

def introduce (s : Symbol) : Body Unit := modify fun b => { b with locals := b.locals.add s.name s }

end Body

namespace Context

/-- What a formal or local variable is bound to, if it can be bound. A variable of an unknown type
is bound with the error type, so that its uses are not reported. -/
def binding (cx : Context) (locals : ScopeStack Symbol) (line : Int) (kind : SymbolKind)
    (name : String) (type : Ty) : Judged (Option Symbol) :=
  if isReserved name then do
    cx.report line (.reservedName kind name)
    pure none
  else if (locals.peek name).isSome then do
    cx.report line (.duplicateName kind name)
    pure none
  else if cx.table.knows type then pure (some ⟨name, kind, type⟩)
  else do
    cx.report line (.undefinedType type kind name)
    pure (some ⟨name, kind, .error⟩)

/-- Judges the initial value of a local variable. A declaration that failed asks nothing of it. -/
def initialized (cx : Context) (line : Int) (name : String) (bound : Option Symbol)
    (initType : Ty) : Judged Unit :=
  match bound with
  | none => pure ()
  | some s =>
      if s.type.isError then pure ()
      else if initType.isVoid then cx.report line (.variableInitVoid name)
      else cx.require (cx.table.accepts s.type initType) line
        (.variableInitMismatch name s.type initType)

def condition (cx : Context) (place : Conditional) (e : Expr) (t : Ty) : Judged Unit :=
  cx.require t.fitsBoolean e.line (.conditionNotBoolean place t)

end Context

namespace MethodContext

def value (cx : MethodContext) (e : Expr) : Body Ty := fun s => do
  let (t, notes) ← (cx.infer (s.locals :: cx.self.varChain) e).run s.notes
  pure (t, { s with notes := notes })

def declare (cx : MethodContext) (line : Int) (kind : SymbolKind) (name : String) (type : Ty) :
    Body (Option Symbol) := do
  let bound ← cx.binding (← get).locals line kind name type
  match bound with
  | none => pure none
  | some s =>
      Body.introduce s
      pure (some s)

def condition (cx : MethodContext) (place : Conditional) (e : Expr) : Body Unit := do
  let t ← cx.value e
  cx.toContext.condition place e t

def returned (cx : MethodContext) (line : Int) : Judged Unit :=
  cx.require (cx.returnType.isVoid || cx.returnType.isError) line
    (.returnsNothing cx.methodName cx.returnType)

/-- Judges a returned value: its type must be the declared one exactly. -/
def returnedValue (cx : MethodContext) (line : Int) (t : Ty) : Judged Unit :=
  if cx.returnType.isVoid then cx.report line (.returnsFromVoid cx.methodName)
  else if t.isVoid then cx.report line (.returnsVoid cx.methodName)
  else cx.require (t.isError || cx.returnType.isError || t == cx.returnType) line
    (.returnMismatch cx.methodName t cx.returnType)

mutual

def check (cx : MethodContext) : Stmt → Body Unit
  | .absent => pure ()
  | .decl line name type init => do
      let initType ← cx.value init
      let bound ← cx.declare line .localVariable name type
      cx.initialized line name bound initType
  | .expr line value => do
      let _ ← cx.value value
      cx.require value.isStatement line .notAStatement
  | .ifElse _ condition thenBranch elseBranch => do
      cx.condition .ifElse condition
      cx.check thenBranch
      cx.check elseBranch
  | .whileLoop line condition body => do
      Body.openLoop line
      cx.condition .whileLoop condition
      cx.check body
      Body.closeLoop
  | .forLoop line init condition update body => do
      Body.openLoop line
      let _ ← cx.value init
      cx.condition .forLoop condition
      let _ ← cx.value update
      cx.check body
      Body.closeLoop
  | .breakLoop line => do
      cx.require (!(← get).loops.isEmpty) line .breakOutsideLoop
  | .block _ body => do
      Body.openScope
      cx.checkAll body
      Body.closeScope
  | .ret line value =>
      if value.isAbsent then cx.returned line
      else do
        let t ← cx.value value
        cx.returnedValue line t

def checkAll (cx : MethodContext) : List Stmt → Body Unit
  | [] => pure ()
  | s :: ss => do
      cx.check s
      cx.checkAll ss

end

def declareFormals (cx : MethodContext) : List Formal → Body Unit
  | [] => pure ()
  | f :: fs => do
      let _ ← cx.declare f.line .formal f.name f.type
      cx.declareFormals fs

end MethodContext

end ClassCheck
