import ClassCheck.Entry
import ClassCheck.Proofs.CheckSteps
import ClassCheck.Proofs.PartsFirst

/-!
# What checking reads of a class

A class shows a face to the phases after the tables are built. Contexts whose classes have equal
faces judge alike, as long as only names that both know the same way are involved.
-/

namespace ClassCheck

/-- What is read of a class: all but the members it declares and the classes below it. -/
structure ClassFace where
  name : String
  file : String
  line : Int
  origin : Origin
  parent : Option String
  upward : List String
  own : Members
  above : List Members

namespace ClassInfo

def face (c : ClassInfo) : ClassFace :=
  ⟨c.name, c.decl.file, c.decl.line, c.origin, c.parent, c.upward.map (·.name), c.own, c.above⟩

variable {c d : ClassInfo}

theorem name_of_face (h : c.face = d.face) : c.name = d.name := congrArg ClassFace.name h

theorem type_of_face (h : c.face = d.face) : c.type = d.type :=
  congrArg Ty.plain (name_of_face h)

theorem varChain_of_face (h : c.face = d.face) : c.varChain = d.varChain := by
  rw [varChain, varChain, show c.own = d.own from congrArg ClassFace.own h,
    show c.above = d.above from congrArg ClassFace.above h]

theorem methodChain_of_face (h : c.face = d.face) : c.methodChain = d.methodChain := by
  rw [methodChain, methodChain, show c.own = d.own from congrArg ClassFace.own h,
    show c.above = d.above from congrArg ClassFace.above h]

theorem field?_of_face (h : c.face = d.face) (x : String) : c.field? x = d.field? x := by
  rw [field?, field?, varChain_of_face h]

theorem method?_of_face (h : c.face = d.face) (x : String) : c.method? x = d.method? x := by
  rw [method?, method?, methodChain_of_face h]

theorem descendsFrom_of_face {c' d' : ClassInfo} (h : c.face = d.face) (h' : c'.face = d'.face) :
    c.descendsFrom c' = d.descendsFrom d' := by
  have hany : ∀ e e' : ClassInfo, e.descendsFrom e' = (e.face.upward.any (· == e'.face.name)) := by
    intro e e'
    rw [face, List.any_map]
    rfl
  rw [hany, hany, h, h']

theorem cases_of_face {o o' : Option ClassInfo} (h : o.map face = o'.map face) :
    (o = none ∧ o' = none) ∨ ∃ c c', o = some c ∧ o' = some c' ∧ c.face = c'.face := by
  cases o <;> cases o' <;> simp_all

end ClassInfo

theorem EntryPoint.problems_of_face (entry : EntryPoint) {t u : ClassTable}
    (h : (t.find? entry.className).map ClassInfo.face =
      (u.find? entry.className).map ClassInfo.face) :
    entry.problems t = entry.problems u := by
  rcases ClassInfo.cases_of_face h with ⟨ht, hu⟩ | ⟨c, d, ht, hu, hface⟩
  · rw [problems, problems, ht, hu]
  · rw [problems, problems, ht, hu]
    simp only [show c.own = d.own from congrArg ClassFace.own hface,
      show c.decl.file = d.decl.file from congrArg ClassFace.file hface,
      show c.decl.line = d.decl.line from congrArg ClassFace.line hface]

/-- The contexts show the same faces, for all that concerns class names of `S`. -/
structure Context.Alike (S : String → Prop) (cx dx : Context) : Prop where
  self : cx.self.face = dx.self.face
  root : cx.table.root.face = dx.table.root.face
  parent : cx.parent?.map ClassInfo.face = dx.parent?.map ClassInfo.face
  find : ∀ n, S n → (cx.table.find? n).map ClassInfo.face = (dx.table.find? n).map ClassInfo.face

theorem ClassTable.knows_eq (t : ClassTable) (ty : Ty) :
    t.knows ty = (Ty.isPrimitiveName ty.name || (t.find? ty.name).isSome) := by
  have hfound : (t.classes.map (·.name)).contains ty.name = (t.find? ty.name).isSome := by
    rw [Bool.eq_iff_iff, List.contains_iff_mem, List.mem_map, find?, List.find?_isSome]
    simp only [beq_iff_eq]
  rw [knows, Ty.isKnown, hfound]

namespace Context.Alike

variable {S : String → Prop} {cx dx : Context} (alike : cx.Alike S dx)
include alike

theorem isSome_find? {n : String} (hn : S n) :
    (cx.table.find? n).isSome = (dx.table.find? n).isSome := by
  have hfind := congrArg Option.isSome (alike.find n hn)
  rwa [Option.isSome_map, Option.isSome_map] at hfind

theorem knows {t : Ty} (ht : Ty.isPrimitiveName t.name = false → S t.name) :
    cx.table.knows t = dx.table.knows t := by
  rw [ClassTable.knows_eq, ClassTable.knows_eq]
  cases hprimitive : Ty.isPrimitiveName t.name with
  | true => rfl
  | false => rw [alike.isSome_find? (ht hprimitive)]

theorem canReturn {t : Ty} (ht : Ty.isPrimitiveName t.name = false → S t.name) :
    cx.table.canReturn t = dx.table.canReturn t := by
  rw [ClassTable.canReturn, ClassTable.canReturn, alike.knows ht]

theorem named? {t : Ty} (ht : t.isClass = true → S t.name) :
    (cx.table.named? t).map ClassInfo.face = (dx.table.named? t).map ClassInfo.face := by
  rw [ClassTable.named?, ClassTable.named?]
  split_ifs with hclass
  · exact alike.find _ (ht hclass)
  · rfl

theorem isSubtype {t u : Ty} (ht : t.isReference = true → S t.name)
    (hu : u.isReference = true → S u.name) :
    cx.table.isSubtype t u = dx.table.isSubtype t u := by
  rw [ClassTable.isSubtype, ClassTable.isSubtype, ClassInfo.type_of_face alike.root]
  split_ifs with _ hreference
  · rfl
  · rfl
  · rfl
  · rfl
  have hboth : t.isReference = true ∧ u.isReference = true := by
    simpa using hreference
  rcases ClassInfo.cases_of_face (alike.find _ (ht hboth.1)) with ⟨h, h'⟩ | ⟨c, c', h, h', hc⟩
  · rw [h, h']
  rcases ClassInfo.cases_of_face (alike.find _ (hu hboth.2)) with ⟨k, k'⟩ | ⟨d, d', k, k', hd⟩
  · rw [h, h', k, k']
  · rw [h, h', k, k']
    exact ClassInfo.descendsFrom_of_face hc hd

theorem accepts {t u : Ty} (ht : t.isReference = true → S t.name)
    (hu : u.isReference = true → S u.name) :
    cx.table.accepts t u = dx.table.accepts t u := by
  rw [ClassTable.accepts, ClassTable.accepts, alike.isSubtype hu ht]

theorem comparable {t u : Ty} (ht : t.isReference = true → S t.name)
    (hu : u.isReference = true → S u.name) :
    cx.table.comparable t u = dx.table.comparable t u := by
  rw [ClassTable.comparable, ClassTable.comparable, alike.isSubtype ht hu, alike.isSubtype hu ht]

theorem report : cx.report = dx.report := by
  funext line problem
  rw [Context.report, Context.report,
    show cx.self.decl.file = dx.self.decl.file from congrArg ClassFace.file alike.self]

theorem refuse : cx.refuse = dx.refuse := by
  funext line problem
  rw [Context.refuse, Context.refuse, alike.report]

theorem require : cx.require = dx.require := by
  funext ok line problem
  rw [Context.require, Context.require, alike.report]

theorem variableType : cx.variableType = dx.variableType := by
  funext vars line name
  rw [Context.variableType, Context.variableType, alike.refuse]

theorem fieldType {c d : ClassInfo} (h : c.face = d.face) (line : Int) (name : String) :
    cx.fieldType c line name = dx.fieldType d line name := by
  rw [Context.fieldType, Context.fieldType, alike.refuse, ClassInfo.field?_of_face h,
    ClassInfo.name_of_face h]

theorem nameType : cx.nameType = dx.nameType := by
  funext vars line name
  have hparent : cx.parent?.map (·.type) = dx.parent?.map (·.type) := by
    rcases ClassInfo.cases_of_face alike.parent with ⟨h, h'⟩ | ⟨c, d, h, h', hcd⟩
    · rw [h, h']
    · rw [h, h', Option.map_some, Option.map_some, ClassInfo.type_of_face hcd]
  rw [Context.nameType, Context.nameType, alike.variableType, ClassInfo.type_of_face alike.self,
    hparent]

theorem fieldOwner? (receiver : Expr) :
    (cx.fieldOwner? receiver).map ClassInfo.face =
      (dx.fieldOwner? receiver).map ClassInfo.face := by
  unfold Context.fieldOwner?
  split
  · split_ifs
    · exact congrArg some alike.self
    · exact alike.parent
    · rfl
  · rfl

theorem receiverField : cx.receiverField = dx.receiverField := by
  funext line receiver name
  rw [Context.receiverField, Context.receiverField]
  rcases ClassInfo.cases_of_face (alike.fieldOwner? receiver) with ⟨h, h'⟩ | ⟨c, d, h, h', hcd⟩
  · rw [h, h', alike.refuse]
  · rw [h, h']
    exact alike.fieldType hcd line name

theorem memberType : cx.memberType = dx.memberType := by
  funext line receiver receiverType name
  rw [Context.memberType, Context.memberType, alike.refuse, alike.receiverField]

theorem varType : cx.varType = dx.varType := by
  funext vars line receiver receiverType name
  rw [Context.varType, Context.varType, alike.nameType, alike.memberType]

theorem indexedType : cx.indexedType = dx.indexedType := by
  funext vars line receiver receiverType name
  rw [Context.indexedType, Context.indexedType, alike.variableType, alike.receiverField]

theorem indexed : cx.indexed = dx.indexed := by
  funext index indexType
  rw [Context.indexed, Context.indexed, alike.require]

theorem elementType : cx.elementType = dx.elementType := by
  funext line name base
  rw [Context.elementType, Context.elementType, alike.refuse]

theorem receiverClass (line : Int) (receiver : Expr) (receiverType : Ty) (method : String)
    (ht : receiverType.isClass = true → S receiverType.name) :
    let r := cx.receiverClass line receiver receiverType method
    let r' := dx.receiverClass line receiver receiverType method
    r.value.map ClassInfo.face = r'.value.map ClassInfo.face ∧ r.reports = r'.reports := by
  intro r r'
  simp only [r, r', Context.receiverClass, alike.report]
  split_ifs
  · exact ⟨congrArg some alike.self, rfl⟩
  · exact ⟨rfl, rfl⟩
  · exact ⟨congrArg some alike.root, rfl⟩
  · exact ⟨alike.named? ht, rfl⟩
  · exact ⟨rfl, rfl⟩

theorem argument {param : Ty} (hp : Ty.isPrimitiveName param.name = false → S param.name)
    (method : String) (position : Nat) (arg : Expr) (argType : Ty) :
    cx.argument method position arg argType param =
      dx.argument method position arg argType param := by
  rw [Context.argument, Context.argument, alike.report, alike.knows hp]

theorem arguments {params : List Ty}
    (hp : ∀ t ∈ params, Ty.isPrimitiveName t.name = false → S t.name) (method : String)
    (position : Nat) (args : List (Expr × Ty)) :
    cx.arguments method position args params = dx.arguments method position args params := by
  induction args generalizing position params with
  | nil => rfl
  | cons a args ih =>
    cases params with
    | nil => rfl
    | cons param params =>
      rw [Context.arguments, Context.arguments, alike.argument (hp param List.mem_cons_self),
        ih fun t ht => hp t (List.mem_cons_of_mem _ ht)]

theorem callType {o o' : Option ClassInfo} (ho : o.map ClassInfo.face = o'.map ClassInfo.face)
    (method : String)
    (hp : ∀ c s, o = some c → c.method? method = some s →
      ∀ t ∈ s.params, Ty.isPrimitiveName t.name = false → S t.name)
    (line : Int) (args : List (Expr × Ty)) :
    cx.callType line o method args = dx.callType line o' method args := by
  rcases ClassInfo.cases_of_face ho with ⟨rfl, rfl⟩ | ⟨c, d, rfl, rfl, hcd⟩
  · rfl
  · rw [Context.callType, Context.callType, alike.refuse]
    simp only [← ClassInfo.method?_of_face hcd, ← ClassInfo.name_of_face hcd]
    cases hs : c.method? method with
    | none => rfl
    | some s => simp only [alike.arguments (hp c s rfl hs)]

theorem objectType {className : String} (hn : S className) (line : Int) :
    cx.objectType line className = dx.objectType line className := by
  have hnamed := congrArg Option.isSome (alike.named? (t := .plain className) fun _ => hn)
  rw [Option.isSome_map, Option.isSome_map] at hnamed
  rw [Context.objectType, Context.objectType, alike.refuse, hnamed]

theorem arrayType {elemName : String} (hn : S elemName) (line : Int) (size : Expr)
    (sizeType : Ty) :
    cx.arrayType line elemName size sizeType = dx.arrayType line elemName size sizeType := by
  rw [Context.arrayType, Context.arrayType, alike.require,
    alike.knows (t := .plain elemName) fun _ => hn]

theorem instanceOfType {target : Ty} (ht : S target.name) (line : Int) (operand : Expr)
    (operandType : Ty) :
    cx.instanceOfType line target operand operandType =
      dx.instanceOfType line target operand operandType := by
  rw [Context.instanceOfType, Context.instanceOfType, Context.askedFor, Context.askedFor,
    alike.require, alike.report, alike.knows fun _ => ht]

theorem castType {target operandType : Ty} (ht : S target.name)
    (ho : operandType.isReference = true → S operandType.name) (line : Int) :
    cx.castType line target operandType = dx.castType line target operandType := by
  simp only [Context.castType, alike.refuse, alike.knows fun _ => ht,
    alike.isSubtype (fun _ => ht) ho, alike.isSubtype ho fun _ => ht]

theorem targetType : cx.targetType = dx.targetType := by
  funext vars line qualifier name
  rw [Context.targetType, Context.targetType, alike.variableType, alike.fieldType alike.self,
    alike.refuse]
  rcases ClassInfo.cases_of_face alike.parent with ⟨h, h'⟩ | ⟨c, d, h, h', hcd⟩
  · rw [h, h']
  · rw [h, h']
    simp only [alike.fieldType hcd]

theorem targetElement : cx.targetElement = dx.targetElement := by
  funext line name target
  rw [Context.targetElement, Context.targetElement, alike.require]

theorem assigned {target valueType : Ty} (ht : target.isReference = true → S target.name)
    (hv : valueType.isReference = true → S valueType.name) (value : Expr) (name : String) :
    cx.assigned target value valueType name = dx.assigned target value valueType name := by
  rw [Context.assigned, Context.assigned, alike.report, alike.require, alike.accepts ht hv]

theorem binaryType {left right : Ty} (hl : left.isReference = true → S left.name)
    (hr : right.isReference = true → S right.name) (line : Int) (op : BinaryOp) :
    cx.binaryType line op left right = dx.binaryType line op left right := by
  rw [Context.binaryType, Context.binaryType, alike.refuse, alike.require,
    alike.comparable hl hr]

theorem unaryType : cx.unaryType = dx.unaryType := by
  funext line op storage operand
  rw [Context.unaryType.eq_def, Context.unaryType.eq_def, alike.refuse]

end Context.Alike

abbrev Context.Same (cx dx : Context) : Prop := cx.Alike (fun _ => True) dx

namespace Context.Same

variable {cx dx : Context} (same : cx.Same dx)
include same

theorem dispatch_judgement (vars : Vars) (storage : Bool) (site : Site) (receiver : Expr)
    (method : String) (args : List Expr) (found : List (Judged Ty)) :
    cx.judgement vars storage (.dispatch site receiver method args) found =
      dx.judgement vars storage (.dispatch site receiver method args) found := by
  obtain ⟨howner, hreports⟩ :=
    same.receiverClass site.line receiver (finding found 0).value method fun _ => trivial
  have hcall := same.callType howner method (fun _ _ _ _ _ _ _ => trivial) site.line
    (args.zip (Reported.forEach found.tail id).value)
  apply Reported.ext
  · simp only [Context.judgement, Reported.value_bind, hcall]
  · simp only [Context.judgement, Reported.reports_bind, hreports, hcall]

theorem judgement : cx.judgement = dx.judgement := by
  funext vars storage e found
  cases e with
  | dispatch site receiver method args =>
    exact same.dispatch_judgement vars storage site receiver method args found
  | _ =>
    simp only [Context.judgement, same.varType, same.indexedType, same.indexed, same.elementType,
      same.objectType trivial, same.arrayType trivial, same.instanceOfType trivial,
      same.castType trivial fun _ => trivial, same.targetType, same.targetElement,
      same.assigned (fun _ => trivial) fun _ => trivial,
      same.binaryType (fun _ => trivial) fun _ => trivial, same.unaryType]

omit same in
theorem findings {vars : Vars} {es : List Expr}
    (h : ∀ e ∈ es, cx.infer vars e = dx.infer vars e) :
    cx.findings vars es = dx.findings vars es := by
  induction es with
  | nil => rfl
  | cons e es ih =>
    funext n
    have hes := ih fun x hx => h x (List.mem_cons_of_mem e hx)
    simp only [Context.findings, h e List.mem_cons_self, hes]

theorem infer (vars : Vars) (e : Expr) : cx.infer vars e = dx.infer vars e := by
  induction e using Expr.parts_induction with
  | step e ih =>
    by_cases he : e = .absent
    · rw [he, Context.infer, Context.infer]
    · funext n
      simp only [infer_eq he, findings ih, same.judgement]

theorem binding : cx.binding = dx.binding := by
  funext locals line kind name type
  rw [Context.binding, Context.binding, same.report, same.knows fun _ => trivial]

theorem initialized : cx.initialized = dx.initialized := by
  funext line name bound initType
  cases bound with
  | none => rfl
  | some s =>
    simp only [Context.initialized, same.report, same.require,
      same.accepts (fun _ => trivial) fun _ => trivial]

theorem condition : cx.condition = dx.condition := by
  funext place e t
  rw [Context.condition, Context.condition, same.require]

end Context.Same

def StepRelation.equality : StepRelation where
  Holds := fun m m' _ Q => m = m' ∧ ∀ a, Q a
  skip := ⟨rfl, fun _ => trivial⟩
  bind := fun {_ _ m _ _ _ _ _ _ _} hm hf =>
    ⟨congr (congrArg _ hm.1) (funext fun a => (hf a (hm.2 a)).1),
      (hf (m ⟨Notes.empty, ScopeStack.empty, []⟩).value.1 (hm.2 _)).2⟩
  loop := fun line hm => ⟨congrArg (Body.inLoop line) hm.1, fun _ => trivial⟩
  scope := fun hm => ⟨congrArg Body.inScope hm.1, fun _ => trivial⟩

structure MethodContext.Same (cx dx : MethodContext) : Prop where
  context : cx.toContext.Same dx.toContext
  methodName : cx.methodName = dx.methodName
  returnType : cx.returnType = dx.returnType

namespace MethodContext.Same

variable {cx dx : MethodContext} (same : cx.Same dx)
include same

theorem value : cx.value = dx.value := by
  funext e s
  simp only [MethodContext.value, same.context.infer,
    ClassInfo.varChain_of_face same.context.self]

theorem declare : cx.declare = dx.declare := by
  funext line kind name type
  rw [MethodContext.declare, MethodContext.declare, same.context.binding]

theorem returned : cx.returned = dx.returned := by
  funext line
  rw [MethodContext.returned, MethodContext.returned, same.context.require, same.methodName,
    same.returnType]

theorem returnedValue : cx.returnedValue = dx.returnedValue := by
  funext line t
  rw [MethodContext.returnedValue, MethodContext.returnedValue, same.context.require,
    same.context.report, same.methodName, same.returnType]

theorem relates : StepRelation.equality.Relates cx dx (fun _ => True) (fun _ _ => True)
    fun _ => True where
  value := fun _ => ⟨by rw [same.value], fun _ => trivial⟩
  judgedCondition := fun _ => ⟨by rw [same.context.condition], fun _ => trivial⟩
  declare := fun _ => ⟨by rw [same.declare], fun _ => trivial⟩
  initialized := fun _ _ _ => ⟨by rw [same.context.initialized], fun _ => trivial⟩
  statement := fun _ => ⟨by rw [same.context.require], fun _ => trivial⟩
  breakLoop := fun _ => by
    rw [MethodContext.check, MethodContext.check, same.context.require]
    exact ⟨rfl, fun _ => trivial⟩
  returned := fun _ => ⟨by rw [same.returned], fun _ => trivial⟩
  returnedValue := fun _ _ => ⟨by rw [same.returnedValue], fun _ => trivial⟩
  formal := fun _ => ⟨by rw [same.declare], fun _ => trivial⟩

end MethodContext.Same

namespace Context.Same

variable {cx dx : Context} (same : cx.Same dx)
include same

theorem ofMethod (m : Method) : (cx.ofMethod m).Same (dx.ofMethod m) where
  context := same
  methodName := rfl
  returnType := by
    simp only [Context.ofMethod, same.canReturn fun _ => trivial]

theorem checkedField (f : Field) : cx.checkedField f = dx.checkedField f := by
  have hinit : cx.fieldInitialized = dx.fieldInitialized := by
    funext f t
    rw [Context.fieldInitialized, Context.fieldInitialized, same.report, same.require,
      same.knows fun _ => trivial, same.accepts (fun _ => trivial) fun _ => trivial]
  rw [Context.checkedField, Context.checkedField, ClassInfo.varChain_of_face same.self,
    same.infer, hinit]

theorem checkedMethod (m : Method) : cx.checkedMethod m = dx.checkedMethod m := by
  have hbody := ((same.ofMethod m).relates.method (m := m) fun _ _ => trivial).1
  funext notes
  simp only [Context.checkedMethod, hbody]

theorem checkedMembers (members : List (Option Member)) :
    cx.checkedMembers members = dx.checkedMembers members := by
  refine Context.checkedMembers_related (P := fun m m' _ => m = m') rfl ?_ cx dx fun member _ => ?_
  · intro m m' k k' _ _ hm hk
    rw [hm, hk]
  · cases member with
    | field f => exact same.checkedField f
    | method m => exact same.checkedMethod m

end Context.Same

end ClassCheck
