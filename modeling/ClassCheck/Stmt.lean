import ClassCheck.Expr

/-! Statements. -/

namespace ClassCheck

/-- A statement. `absent` holds the place of one that is not there, such as a missing branch. -/
inductive Stmt where
  | absent
  | decl (line : Int) (name : String) (type : Ty) (init : Expr)
  | expr (line : Int) (value : Expr)
  | ifElse (line : Int) (condition : Expr) (thenBranch elseBranch : Stmt)
  | whileLoop (line : Int) (condition : Expr) (body : Stmt)
  | forLoop (line : Int) (init condition update : Expr) (body : Stmt)
  | breakLoop (line : Int)
  | block (line : Int) (body : List Stmt)
  | ret (line : Int) (value : Expr)

namespace Stmt

def line : Stmt → Int
  | absent => 0
  | decl l .. | expr l _ | ifElse l .. | whileLoop l .. | forLoop l .. | breakLoop l | block l _
  | ret l _ => l

end Stmt

end ClassCheck
