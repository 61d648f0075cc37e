import Mathlib.Data.List.Forall2
import Mathlib.Logic.Relation
import ClassCheck.Entry
import ClassCheck.Walk

/-!
# Well-formed programs

What it means for a program to be well formed, said without tables, scopes or an order of checking.
Classes extend each other by name, a member is the nearest one declared on the way up, and types are
given by a judgement on expressions and statements. Nothing here says how any of it is decided.
-/

namespace ClassCheck

structure MethodType where
  params : List Ty
  result : Ty

def Method.type (m : Method) : MethodType := ⟨m.formals.map (·.type), m.returnType⟩

def Member.field? : Member → Option Field
  | .field f => some f
  | .method _ => none

def Member.method? : Member → Option Method
  | .field _ => none
  | .method m => some m

namespace ClassDecl

def fields (d : ClassDecl) : List Field := (d.members.filterMap id).filterMap Member.field?

def methods (d : ClassDecl) : List Method := (d.members.filterMap id).filterMap Member.method?

def parentName (d : ClassDecl) : String := if d.parent = "" then BuiltIn.rootName else d.parent

def HasField (d : ClassDecl) (name : String) (t : Ty) : Prop :=
  ∃ f ∈ d.fields, f.name = name ∧ f.type = t

def HasMethod (d : ClassDecl) (name : String) (t : MethodType) : Prop :=
  ∃ m ∈ d.methods, m.name = name ∧ m.type = t

end ClassDecl

namespace Program

def decls (p : Program) : List ClassDecl := p.classes.filterMap id

def allDecls (p : Program) : List ClassDecl := Registry.builtIn.classes.map (·.decl) ++ p.decls

def classNames (p : Program) : List String := p.allDecls.map (·.name)

/-- Direct inheritance, by name. The parent need not exist. -/
def Extends (p : Program) (sub sup : String) : Prop :=
  ∃ d ∈ p.allDecls, d.name = sub ∧ sub ≠ BuiltIn.rootName ∧ d.parentName = sup

def Known (p : Program) (t : Ty) : Prop :=
  t.name = "int" ∨ t.name = "boolean" ∨ t.name ∈ p.classNames

def Reference (p : Program) (t : Ty) : Prop :=
  p.Known t ∧ (t.isArray = true ∨ t.name ∈ p.classNames)

/-- What a class sees under a name: its own declaration, or else what the class above it sees. -/
inductive Sees {α : Type} (p : Program) (declares : ClassDecl → String → α → Prop) :
    String → String → α → Prop where
  | own {d name a} : d ∈ p.allDecls → declares d name a → Sees p declares d.name name a
  | above {d sup name a} : d ∈ p.allDecls → (∀ b, ¬ declares d name b) →
      p.Extends d.name sup → Sees p declares sup name a → Sees p declares d.name name a

/-! ### Classes and their members -/

/-- Names are distinct and not built in, parents are there and open, and inheritance has no
cycle. -/
structure HierarchyOk (p : Program) : Prop where
  names_distinct : (p.decls.map (·.name)).Nodup
  names_new : ∀ d ∈ p.decls, d.name ∉ Registry.builtIn.classes.map (·.name)
  parent_exists : ∀ d ∈ p.decls, d.parentName ∈ p.classNames
  parent_open : ∀ d ∈ p.decls, d.parentName ∉ ["String", "TextIO", "Sys"]
  acyclic : ∀ d ∈ p.decls, ¬ Relation.TransGen p.Extends d.name d.name

structure MembersOk (p : Program) (d : ClassDecl) : Prop where
  fields_distinct : (d.fields.map (·.name)).Nodup
  fields_unreserved : ∀ f ∈ d.fields, f.name ∉ ["this", "super", "null"]
  fields_known : ∀ f ∈ d.fields, p.Known f.type
  methods_distinct : (d.methods.map (·.name)).Nodup
  methods_unreserved : ∀ m ∈ d.methods, m.name ∉ ["this", "super", "null"]
  results_known : ∀ m ∈ d.methods, m.returnType = .void ∨ p.Known m.returnType
  /-- A name may be declared again below, but not with another type. -/
  overrides : ∀ m ∈ d.methods, ∀ e ∈ p.allDecls, Relation.TransGen p.Extends d.name e.name →
    ∀ t, e.HasMethod m.name t → t = m.type

/-- A class has the entry method itself, and it takes and returns nothing. Empty names stand for
the usual ones. -/
def EntryOk (p : Program) (className methodName : String) : Prop :=
  ∃ d ∈ p.allDecls, d.name = (if className = "" then "Main" else className) ∧
    ∃ m ∈ d.methods, m.name = (if methodName = "" then "main" else methodName) ∧
      m.formals = [] ∧ m.returnType = .void

/-! ### Relations between types -/

inductive Subtype (p : Program) : Ty → Ty → Prop where
  | refl (t : Ty) : Subtype p t t
  | root {t} : p.Reference t → Subtype p t (.plain BuiltIn.rootName)
  | up {sub sup} (isArray : Bool) : Relation.TransGen p.Extends sub sup →
      Subtype p ⟨sub, isArray⟩ ⟨sup, isArray⟩

def Assignable (p : Program) (target source : Ty) : Prop :=
  (source = .null ∧ p.Reference target) ∨ (source ≠ .void ∧ p.Subtype source target)

def Related (p : Program) (s t : Ty) : Prop := p.Subtype s t ∨ p.Subtype t s

def Comparable (p : Program) (s t : Ty) : Prop :=
  (s = .null ∧ p.Reference t) ∨ (t = .null ∧ p.Reference s) ∨
    (s ≠ .void ∧ t ≠ .void ∧ p.Related s t)

end Program

/-! ### Expressions -/

inductive Expr.Place : Expr → Prop where
  | named (site : Site) (name : String) : Place (.var site .absent name)
  | field (site inner : Site) (word name : String) : word = "this" ∨ word = "super" →
      Place (.var site (.var inner .absent word) name)
  | element (site : Site) (receiver : Expr) (name : String) (index : Expr) :
      Place (.element site receiver name index)

inductive Expr.Effect : Expr → Prop where
  | assign (site : Site) (qualifier name : String) (value : Expr) :
      Effect (.assign site qualifier name value)
  | assignElement (site : Site) (qualifier name : String) (index value : Expr) :
      Effect (.assignElement site qualifier name index value)
  | newObject (site : Site) (className : String) : Effect (.newObject site className)
  | dispatch (site : Site) (receiver : Expr) (method : String) (args : List Expr) :
      Effect (.dispatch site receiver method args)
  | update (site : Site) (op : UnaryOp) (trailing : Bool) (operand : Expr) :
      op = .incr ∨ op = .decr → Effect (.unary site op trailing operand)

namespace Program

/-- The class as which `this` and `super` denote an object of class `self`. -/
inductive SelfClass (p : Program) (self : String) : String → String → Prop where
  | this : SelfClass p self "this" self
  | super {sup} : p.Extends self sup → SelfClass p self "super" sup

/-- A variable in sight: a local one, or else a field. -/
def Visible (p : Program) (self : String) (Γ : List (String × Ty)) (name : String) (t : Ty) :
    Prop :=
  Γ.lookup name = some t ∨
    (Γ.lookup name = none ∧ p.Sees ClassDecl.HasField self name t)

def Target (p : Program) (self : String) (Γ : List (String × Ty)) (qualifier name : String)
    (t : Ty) : Prop :=
  (qualifier = "" ∧ p.Visible self Γ name t) ∨
    ∃ c, p.SelfClass self qualifier c ∧ p.Sees ClassDecl.HasField c name t

inductive CallableAs (p : Program) : Ty → String → Prop where
  | object {c} : c ∈ p.classNames → CallableAs p (.plain c) c
  | array (name : String) : CallableAs p ⟨name, true⟩ BuiltIn.rootName

inductive HasType (p : Program) (self : String) (Γ : List (String × Ty)) : Expr → Ty → Prop where
  | int (site : Site) (value : Int) : HasType p self Γ (.int site value) .int
  | bool (site : Site) (value : Bool) : HasType p self Γ (.bool site value) .boolean
  | str (site : Site) (value : String) :
      HasType p self Γ (.str site value) (.plain BuiltIn.stringName)
  | selfWord (site : Site) {word c} : p.SelfClass self word c →
      HasType p self Γ (.var site .absent word) (.plain c)
  | null (site : Site) : HasType p self Γ (.var site .absent "null") .null
  | named (site : Site) {name t} : name ∉ ["this", "super", "null"] →
      p.Visible self Γ name t → HasType p self Γ (.var site .absent name) t
  | field (site inner : Site) {word c name t} : p.SelfClass self word c →
      p.Sees ClassDecl.HasField c name t →
      HasType p self Γ (.var site (.var inner .absent word) name) t
  | length (site : Site) {receiver t} : HasType p self Γ receiver t → t.isArray = true →
      HasType p self Γ (.var site receiver "length") .int
  | element (site : Site) {name t index} : p.Visible self Γ name t → t.isArray = true →
      HasType p self Γ index .int → HasType p self Γ (.element site .absent name index) t.elem
  | fieldElement (site inner : Site) {word c name t index} : p.SelfClass self word c →
      p.Sees ClassDecl.HasField c name t → t.isArray = true → HasType p self Γ index .int →
      HasType p self Γ (.element site (.var inner .absent word) name index) t.elem
  | selfCall (site : Site) {method args params result} :
      p.Sees ClassDecl.HasMethod self method ⟨params, result⟩ →
      List.Forall₂ (HasType p self Γ) args params →
      HasType p self Γ (.dispatch site .absent method args) result
  | call (site : Site) {receiver t c method args params result} : HasType p self Γ receiver t →
      p.CallableAs t c → p.Sees ClassDecl.HasMethod c method ⟨params, result⟩ →
      -- an argument has its parameter's type exactly
      List.Forall₂ (HasType p self Γ) args params →
      HasType p self Γ (.dispatch site receiver method args) result
  | newObject (site : Site) {c} : c ∈ p.classNames →
      HasType p self Γ (.newObject site c) (.plain c)
  | newArray (site : Site) {name size} : p.Known (.plain name) → HasType p self Γ size .int →
      HasType p self Γ (.newArray site name size) ⟨name, true⟩
  | instanceOf (site : Site) {target operand t} : p.Reference target →
      HasType p self Γ operand t → t ∉ [.void, .int, .boolean] →
      HasType p self Γ (.instanceOf site operand target) .boolean
  | cast (site : Site) {target operand t} : p.Reference target → HasType p self Γ operand t →
      t = .null ∨ (p.Reference t ∧ p.Related t target) →
      HasType p self Γ (.cast site target operand) target
  | assign (site : Site) {qualifier name t value s} : p.Target self Γ qualifier name t →
      HasType p self Γ value s → p.Assignable t s →
      HasType p self Γ (.assign site qualifier name value) t
  | assignElement (site : Site) {qualifier name t index value s} :
      p.Target self Γ qualifier name t → t.isArray = true → HasType p self Γ index .int →
      HasType p self Γ value s → p.Assignable t.elem s →
      HasType p self Γ (.assignElement site qualifier name index value) t.elem
  | arithmetic (site : Site) {op left right} : op.family = .arithmetic →
      HasType p self Γ left .int → HasType p self Γ right .int →
      HasType p self Γ (.binary site op left right) .int
  | relational (site : Site) {op left right} : op.family = .relational →
      HasType p self Γ left .int → HasType p self Γ right .int →
      HasType p self Γ (.binary site op left right) .boolean
  | equality (site : Site) {op left right s t} : op.family = .equality →
      HasType p self Γ left s → HasType p self Γ right t → p.Comparable s t →
      HasType p self Γ (.binary site op left right) .boolean
  | logical (site : Site) {op left right} : op.family = .logical →
      HasType p self Γ left .boolean → HasType p self Γ right .boolean →
      HasType p self Γ (.binary site op left right) .boolean
  | negation (site : Site) (trailing : Bool) {operand} : HasType p self Γ operand .int →
      HasType p self Γ (.unary site .neg trailing operand) .int
  | complement (site : Site) (trailing : Bool) {operand} : HasType p self Γ operand .boolean →
      HasType p self Γ (.unary site .not trailing operand) .boolean
  | update (site : Site) (trailing : Bool) {op operand} : op = .incr ∨ op = .decr →
      operand.Place → HasType p self Γ operand .int →
      HasType p self Γ (.unary site op trailing operand) .int

/-! ### Statements -/

/-- The local variables in sight, and which names the innermost scope has. -/
structure Locals where
  vars : List (String × Ty)
  here : List String

namespace Locals

def empty : Locals := ⟨[], []⟩

def enter (Γ : Locals) : Locals := ⟨Γ.vars, []⟩

def bind (Γ : Locals) (name : String) (t : Ty) : Locals := ⟨(name, t) :: Γ.vars, name :: Γ.here⟩

end Locals

/-- `Γ` becomes `Γ'` by a new variable of the innermost scope. -/
def Binds (p : Program) (Γ : Locals) (name : String) (t : Ty) (Γ' : Locals) : Prop :=
  name ∉ ["this", "super", "null"] ∧ name ∉ Γ.here ∧ p.Known t ∧ Γ' = Γ.bind name t

def InitOk (p : Program) (self : String) (Γ : List (String × Ty)) (t : Ty) (init : Expr) : Prop :=
  init = .absent ∨ ∃ s, p.HasType self Γ init s ∧ p.Assignable t s

def TypedIfThere (p : Program) (self : String) (Γ : List (String × Ty)) (e : Expr) : Prop :=
  e = .absent ∨ ∃ t, p.HasType self Γ e t

mutual

/-- A statement of a method with the given result, inside a loop or not, is well typed among the
variables before it and leaves those after it. Only a block ends what was declared in it. -/
inductive StmtOk (p : Program) (self : String) (result : Ty) :
    Bool → Locals → Stmt → Locals → Prop where
  | absent {inLoop Γ} : StmtOk p self result inLoop Γ .absent Γ
  | decl {inLoop Γ line name t init Γ'} : p.InitOk self Γ.vars t init → p.Binds Γ name t Γ' →
      StmtOk p self result inLoop Γ (.decl line name t init) Γ'
  | expr {inLoop Γ line e t} : p.HasType self Γ.vars e t → e.Effect →
      StmtOk p self result inLoop Γ (.expr line e) Γ
  | ifElse {inLoop Γ line c thenBranch elseBranch Γ' Γ''} : p.HasType self Γ.vars c .boolean →
      StmtOk p self result inLoop Γ thenBranch Γ' →
      StmtOk p self result inLoop Γ' elseBranch Γ'' →
      StmtOk p self result inLoop Γ (.ifElse line c thenBranch elseBranch) Γ''
  | whileLoop {inLoop Γ line c body Γ'} : p.HasType self Γ.vars c .boolean →
      StmtOk p self result true Γ body Γ' →
      StmtOk p self result inLoop Γ (.whileLoop line c body) Γ'
  | forLoop {inLoop Γ line init c update body Γ'} : p.TypedIfThere self Γ.vars init →
      c = .absent ∨ p.HasType self Γ.vars c .boolean → p.TypedIfThere self Γ.vars update →
      StmtOk p self result true Γ body Γ' →
      StmtOk p self result inLoop Γ (.forLoop line init c update body) Γ'
  | breakLoop {Γ line} : StmtOk p self result true Γ (.breakLoop line) Γ
  | block {inLoop Γ line body Γ'} : BodyOk p self result inLoop Γ.enter body Γ' →
      StmtOk p self result inLoop Γ (.block line body) Γ
  | retNothing {inLoop Γ line} : result = .void →
      StmtOk p self result inLoop Γ (.ret line .absent) Γ
  | ret {inLoop Γ line e} : result ≠ .void → p.HasType self Γ.vars e result →
      StmtOk p self result inLoop Γ (.ret line e) Γ

inductive BodyOk (p : Program) (self : String) (result : Ty) :
    Bool → Locals → List Stmt → Locals → Prop where
  | nil {inLoop Γ} : BodyOk p self result inLoop Γ [] Γ
  | cons {inLoop Γ s Γ' rest Γ''} : StmtOk p self result inLoop Γ s Γ' →
      BodyOk p self result inLoop Γ' rest Γ'' →
      BodyOk p self result inLoop Γ (s :: rest) Γ''

end

inductive FormalsOk (p : Program) : Locals → List Formal → Locals → Prop where
  | nil {Γ} : FormalsOk p Γ [] Γ
  | cons {Γ f Γ' rest Γ''} : p.Binds Γ f.name f.type Γ' → FormalsOk p Γ' rest Γ'' →
      FormalsOk p Γ (f :: rest) Γ''

def MethodOk (p : Program) (self : String) (m : Method) : Prop :=
  ∃ Γ Γ', p.FormalsOk .empty m.formals Γ ∧ p.BodyOk self m.returnType false Γ m.body Γ'

structure BodiesOk (p : Program) (d : ClassDecl) : Prop where
  fields : ∀ f ∈ d.fields, p.InitOk d.name [] f.type f.init
  methods : ∀ m ∈ d.methods, p.MethodOk d.name m

structure WellFormed (p : Program) (className methodName : String) : Prop where
  hierarchy : p.HierarchyOk
  members : ∀ d ∈ p.decls, p.MembersOk d
  entry : p.EntryOk className methodName
  bodies : ∀ d ∈ p.decls, p.BodiesOk d

end Program

/-! ### Programs as they are parsed -/

def Dotless (name : String) : Prop := '.' ∉ name.toList

/-- No operand that the language requires is missing, and no variable is named with a dot. -/
def Expr.Shaped : Expr → Prop
  | .var _ _ name => Dotless name
  | .element _ _ name index => Dotless name ∧ index ≠ .absent
  | .dispatch _ _ _ args => .absent ∉ args
  | .newArray _ _ size => size ≠ .absent
  | .instanceOf _ operand _ | .cast _ _ operand | .unary _ _ _ operand => operand ≠ .absent
  | .assign _ _ name value => Dotless name ∧ value ≠ .absent
  | .assignElement _ _ name index value => Dotless name ∧ index ≠ .absent ∧ value ≠ .absent
  | .binary _ _ left right => left ≠ .absent ∧ right ≠ .absent
  | _ => True

def Stmt.Shaped : Stmt → Prop
  | .decl _ name _ _ => Dotless name
  | .expr _ value => value ≠ .absent
  | .ifElse _ condition thenBranch _ => condition ≠ .absent ∧ thenBranch ≠ .absent
  | .whileLoop _ condition body => condition ≠ .absent ∧ body ≠ .absent
  | .forLoop _ _ _ _ body => body ≠ .absent
  | .block _ body => .absent ∉ body
  | _ => True

def Node.Shaped : Node → Prop
  | .noClass => False
  | .classDecl c => none ∉ c.members ∧ Ty.isSpecialName c.name = false
  | .field f => Dotless f.name
  | .formal f => Dotless f.name
  | .method m => .absent ∉ m.body
  | .stmt s => s.Shaped
  | .expr e => e.Shaped
  | .program _ => True

/-- What a parser sees to: nothing that is required is missing anywhere, no class has the name of a
special type, and no expression stands in two places. -/
structure Program.Parsed (p : Program) : Prop where
  shaped : ∀ n ∈ p.tree.visited fun _ => true, n.Shaped
  unshared : p.exprs.Nodup

end ClassCheck
