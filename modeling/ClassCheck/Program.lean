import ClassCheck.Stmt

/-! Programs: classes with fields and methods. A list of classes or members may have empty places,
which every analysis passes over. -/

namespace ClassCheck

structure Formal where
  line : Int
  name : String
  type : Ty

structure Field where
  line : Int
  name : String
  type : Ty
  init : Expr

structure Method where
  line : Int
  name : String
  returnType : Ty
  formals : List Formal
  body : List Stmt

inductive Member where
  | field (f : Field)
  | method (m : Method)

/-- A class as declared. An empty `parent` means that no parent is named. -/
structure ClassDecl where
  file : String
  line : Int
  name : String
  parent : String
  members : List (Option Member)

structure Program where
  line : Int
  classes : List (Option ClassDecl)

end ClassCheck
