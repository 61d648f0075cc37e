import ClassCheck.Program

/-! The walk over a program. Every piece of syntax has a tree of nodes, children in source order;
a walk visits a node before its children and may turn back at any node. -/

namespace ClassCheck

/-- What a walk visits. `noClass` is the empty place of a class in a program. -/
inductive Node where
  | program (p : Program)
  | noClass
  | classDecl (c : ClassDecl)
  | field (f : Field)
  | method (m : Method)
  | formal (f : Formal)
  | stmt (s : Stmt)
  | expr (e : Expr)

def Node.expr? : Node → Option Expr
  | .expr e => some e
  | _ => none

inductive Tree (α : Type) where
  | node (item : α) (children : List (Tree α))

mutual

def Expr.trees : Expr → List (Tree Node)
  | .absent => []
  | e@(.int ..) | e@(.bool ..) | e@(.str ..) | e@(.newObject ..) => [.node (.expr e) []]
  | e@(.var _ receiver _) => [.node (.expr e) receiver.trees]
  | e@(.element _ receiver _ index) => [.node (.expr e) (receiver.trees ++ index.trees)]
  | e@(.dispatch _ receiver _ args) =>
      [.node (.expr e) (receiver.trees ++ Expr.treesOfAll args)]
  | e@(.newArray _ _ size) => [.node (.expr e) size.trees]
  | e@(.instanceOf _ operand _) => [.node (.expr e) operand.trees]
  | e@(.cast _ _ operand) => [.node (.expr e) operand.trees]
  | e@(.assign _ _ _ value) => [.node (.expr e) value.trees]
  | e@(.assignElement _ _ _ index value) => [.node (.expr e) (index.trees ++ value.trees)]
  | e@(.binary _ _ left right) => [.node (.expr e) (left.trees ++ right.trees)]
  | e@(.unary _ _ _ operand) => [.node (.expr e) operand.trees]

def Expr.treesOfAll : List Expr → List (Tree Node)
  | [] => []
  | e :: es => e.trees ++ Expr.treesOfAll es

end

mutual

def Stmt.trees : Stmt → List (Tree Node)
  | .absent => []
  | s@(.decl _ _ _ init) => [.node (.stmt s) init.trees]
  | s@(.expr _ value) => [.node (.stmt s) value.trees]
  | s@(.ifElse _ condition thenBranch elseBranch) =>
      [.node (.stmt s) (condition.trees ++ thenBranch.trees ++ elseBranch.trees)]
  | s@(.whileLoop _ condition body) => [.node (.stmt s) (condition.trees ++ body.trees)]
  | s@(.forLoop _ init condition update body) =>
      [.node (.stmt s) (init.trees ++ condition.trees ++ update.trees ++ body.trees)]
  | s@(.breakLoop _) => [.node (.stmt s) []]
  | s@(.block _ body) => [.node (.stmt s) (Stmt.treesOfAll body)]
  | s@(.ret _ value) => [.node (.stmt s) value.trees]

def Stmt.treesOfAll : List Stmt → List (Tree Node)
  | [] => []
  | s :: ss => s.trees ++ Stmt.treesOfAll ss

end

def Formal.tree (f : Formal) : Tree Node := .node (.formal f) []

def Field.tree (f : Field) : Tree Node := .node (.field f) f.init.trees

def Method.tree (m : Method) : Tree Node :=
  .node (.method m) (m.formals.map Formal.tree ++ Stmt.treesOfAll m.body)

def Member.tree : Member → Tree Node
  | .field f => f.tree
  | .method m => m.tree

def ClassDecl.tree (c : ClassDecl) : Tree Node :=
  .node (.classDecl c) (c.members.filterMap (·.map Member.tree))

/-- An empty place among the classes is a node of its own, unlike one among the members. -/
def Program.tree (p : Program) : Tree Node :=
  .node (.program p) (p.classes.map fun
    | none => .node .noClass []
    | some c => c.tree)

mutual

/-- Walks a tree, node before children, with a state. `visit` updates the state at each node, and
says whether to go on to its children. -/
def Tree.walk {α σ : Type} (visit : α → σ → Bool × σ) : Tree α → σ → σ
  | .node item children, s =>
      match visit item s with
      | (true, s') => Tree.walkAll visit children s'
      | (false, s') => s'

def Tree.walkAll {α σ : Type} (visit : α → σ → Bool × σ) : List (Tree α) → σ → σ
  | [], s => s
  | t :: ts, s => Tree.walkAll visit ts (t.walk visit s)

end

def Tree.visited {α : Type} (keep : α → Bool) (t : Tree α) : List α :=
  (t.walk (fun n seen => (keep n, n :: seen)) []).reverse

def Program.exprs (p : Program) : List Expr :=
  (p.tree.visited fun _ => true).filterMap Node.expr?

end ClassCheck
