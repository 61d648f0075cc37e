import ClassCheck.Typing.Body

/-! Checking the members of classes, class by class. Also members that were left out of the tables
are checked. -/

namespace ClassCheck

namespace Context

def fieldInitialized (cx : Context) (f : Field) (initType : Ty) : Judged Unit :=
  if initType.isVoid then cx.report f.line (.fieldInitVoid f.name)
  else cx.require (!cx.table.knows f.type || cx.table.accepts f.type initType) f.line
    (.fieldInitMismatch f.name f.type initType)

def checkedField (cx : Context) (f : Field) : Check Unit := do
  let initType ← cx.infer cx.self.varChain f.init
  cx.fieldInitialized f initType

/-- A method with an unknown return type may return anything. -/
def ofMethod (cx : Context) (m : Method) : MethodContext :=
  { cx with
    methodName := m.name
    returnType := if cx.table.canReturn m.returnType then m.returnType else .error }

def checkedMethod (cx : Context) (m : Method) : Check Unit := fun notes => do
  let mcx := cx.ofMethod m
  let check : Body Unit := do
    mcx.declareFormals m.formals
    mcx.checkAll m.body
  let (_, s) ← check.run ⟨notes, ScopeStack.empty.enter, []⟩
  pure ((), s.notes)

def checkedMember (cx : Context) : Member → Check Unit
  | .field f => cx.checkedField f
  | .method m => cx.checkedMethod m

def checkedMembers (cx : Context) : List (Option Member) → Check Unit
  | [] => pure ()
  | none :: rest => cx.checkedMembers rest
  | some member :: rest => do
      cx.checkedMember member
      cx.checkedMembers rest

end Context

namespace ClassTable

def checkedClasses (t : ClassTable) : List ClassInfo → Check Unit
  | [] => pure ()
  | c :: rest => do
      Context.checkedMembers ⟨t, c⟩ c.decl.members
      t.checkedClasses rest

end ClassTable

end ClassCheck
