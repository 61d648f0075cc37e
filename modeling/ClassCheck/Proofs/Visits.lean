import ClassCheck.Walk
import Mathlib.Data.List.Basic

/-! What a walk visits: a node and then, unless it turns back, what is below; on a full walk the
nodes of a tree in preorder, and among them the expressions. Also the induction principles that the
proofs over syntax follow. -/

namespace ClassCheck

@[elab_as_elim, induction_eliminator]
theorem Expr.induction {motive : Expr → Prop} (absent : motive .absent)
    (int : ∀ site value, motive (.int site value))
    (bool : ∀ site value, motive (.bool site value))
    (str : ∀ site value, motive (.str site value))
    (var : ∀ site receiver name, motive receiver → motive (.var site receiver name))
    (element : ∀ site receiver name index, motive receiver → motive index →
      motive (.element site receiver name index))
    (dispatch : ∀ site receiver method args, motive receiver → (∀ a ∈ args, motive a) →
      motive (.dispatch site receiver method args))
    (newObject : ∀ site className, motive (.newObject site className))
    (newArray : ∀ site elemName size, motive size → motive (.newArray site elemName size))
    (instanceOf : ∀ site operand target, motive operand →
      motive (.instanceOf site operand target))
    (cast : ∀ site target operand, motive operand → motive (.cast site target operand))
    (assign : ∀ site qualifier name value, motive value →
      motive (.assign site qualifier name value))
    (assignElement : ∀ site qualifier name index value, motive index → motive value →
      motive (.assignElement site qualifier name index value))
    (binary : ∀ site op left right, motive left → motive right →
      motive (.binary site op left right))
    (unary : ∀ site op trailing operand, motive operand →
      motive (.unary site op trailing operand)) (e : Expr) : motive e := by
  refine @Expr.rec motive (fun es => ∀ e ∈ es, motive e) absent int bool str var element dispatch
    newObject newArray instanceOf cast assign assignElement binary unary ?_ ?_ e
  · intro e he
    cases he
  · intro first rest hfirst hrest e he
    rcases List.mem_cons.mp he with rfl | he
    · exact hfirst
    · exact hrest e he

@[elab_as_elim, induction_eliminator]
theorem Stmt.induction {motive : Stmt → Prop} (absent : motive .absent)
    (decl : ∀ line name type init, motive (.decl line name type init))
    (expr : ∀ line value, motive (.expr line value))
    (ifElse : ∀ line condition thenBranch elseBranch, motive thenBranch → motive elseBranch →
      motive (.ifElse line condition thenBranch elseBranch))
    (whileLoop : ∀ line condition body, motive body → motive (.whileLoop line condition body))
    (forLoop : ∀ line init condition update body, motive body →
      motive (.forLoop line init condition update body))
    (breakLoop : ∀ line, motive (.breakLoop line))
    (block : ∀ line body, (∀ s ∈ body, motive s) → motive (.block line body))
    (ret : ∀ line value, motive (.ret line value)) (s : Stmt) : motive s := by
  refine @Stmt.rec motive (fun ss => ∀ s ∈ ss, motive s) absent decl expr ifElse whileLoop forLoop
    breakLoop block ret ?_ ?_ s
  · intro s hs
    cases hs
  · intro first rest hfirst hrest s hs
    rcases List.mem_cons.mp hs with rfl | hs
    · exact hfirst
    · exact hrest s hs

@[elab_as_elim, induction_eliminator]
theorem Tree.induction {α : Type} {motive : Tree α → Prop}
    (node : ∀ item children, (∀ t ∈ children, motive t) → motive (.node item children))
    (t : Tree α) : motive t := by
  refine @Tree.rec α motive (fun ts => ∀ t ∈ ts, motive t) node ?_ ?_ t
  · intro t ht
    cases ht
  · intro first rest hfirst hrest t ht
    rcases List.mem_cons.mp ht with rfl | ht
    · exact hfirst
    · exact hrest t ht

mutual

def Tree.nodes {α : Type} : Tree α → List α
  | .node item children => item :: Tree.nodesAll children

def Tree.nodesAll {α : Type} : List (Tree α) → List α
  | [] => []
  | t :: ts => t.nodes ++ Tree.nodesAll ts

end

theorem Tree.nodesAll_eq_flatMap {α : Type} (ts : List (Tree α)) :
    Tree.nodesAll ts = ts.flatMap Tree.nodes := by
  induction ts with
  | nil => rfl
  | cons t ts ih => rw [Tree.nodesAll, ih, List.flatMap_cons]

namespace Tree

variable {α : Type} (keep : α → Bool)

mutual

theorem walk_append (t : Tree α) (seen : List α) :
    t.walk (fun n seen => (keep n, n :: seen)) seen =
      t.walk (fun n seen => (keep n, n :: seen)) [] ++ seen := by
  cases t with
  | node item children =>
    rw [walk, walk]
    cases keep item with
    | false => rfl
    | true =>
      simp only
      rw [walkAll_append children (item :: seen), walkAll_append children [item],
        List.append_assoc, List.singleton_append]

theorem walkAll_append (ts : List (Tree α)) (seen : List α) :
    walkAll (fun n seen => (keep n, n :: seen)) ts seen =
      walkAll (fun n seen => (keep n, n :: seen)) ts [] ++ seen := by
  cases ts with
  | nil => rfl
  | cons t ts =>
    rw [walkAll, walkAll, walkAll_append ts, walk_append t, walkAll_append ts (t.walk _ []),
      List.append_assoc]

end

theorem walkAll_eq (ts : List (Tree α)) :
    (walkAll (fun n seen => (keep n, n :: seen)) ts []).reverse = ts.flatMap (·.visited keep) := by
  induction ts with
  | nil => rfl
  | cons t ts ih =>
    rw [walkAll, walkAll_append, List.reverse_append, ih, List.flatMap_cons, visited]

theorem visited_node (item : α) (children : List (Tree α)) :
    (Tree.node item children).visited keep =
      item :: if keep item then children.flatMap (·.visited keep) else [] := by
  rw [visited, walk]
  cases keep item with
  | false => rfl
  | true =>
    simp only
    rw [walkAll_append, List.reverse_append, walkAll_eq]
    rfl

theorem visited_all (t : Tree α) : t.visited (fun _ => true) = t.nodes := by
  induction t with
  | node item children ih =>
    rw [visited_node, if_pos rfl, List.flatMap_congr ih, nodes, nodesAll_eq_flatMap]

end Tree

theorem Tree.nodesAll_append {α : Type} (ts us : List (Tree α)) :
    Tree.nodesAll (ts ++ us) = Tree.nodesAll ts ++ Tree.nodesAll us := by
  simp only [Tree.nodesAll_eq_flatMap, List.flatMap_append]

theorem Tree.nodesAll_node {α : Type} (item : α) (children : List (Tree α)) :
    Tree.nodesAll [.node item children] = item :: Tree.nodesAll children := by
  rw [nodesAll, nodes, nodesAll, List.append_nil]

def Tree.All (P : Node → Prop) (ts : List (Tree Node)) : Prop := ∀ n ∈ Tree.nodesAll ts, P n

namespace Tree.All

variable {P : Node → Prop}

theorem node {item : Node} {children : List (Tree Node)} :
    All P [.node item children] ↔ P item ∧ All P children := by
  simp [All, nodesAll, nodes]

theorem append {ts us : List (Tree Node)} : All P (ts ++ us) ↔ All P ts ∧ All P us := by
  simp only [All, nodesAll_append, List.mem_append, or_imp, forall_and]

theorem of_mem {ts : List (Tree Node)} (h : All P ts) {t : Tree Node} (ht : t ∈ ts) :
    All P [t] := by
  intro n hn
  rw [nodesAll_eq_flatMap] at hn
  refine h n ?_
  rw [nodesAll_eq_flatMap]
  exact List.mem_flatMap.mpr ⟨t, ht, by simpa using hn⟩

theorem of_exprs {es : List Expr} (h : All P (Expr.treesOfAll es)) {e : Expr} (he : e ∈ es) :
    All P e.trees := by
  induction es with
  | nil => cases he
  | cons first es ih =>
    obtain ⟨hfirst, hes⟩ := append.mp h
    rcases List.mem_cons.mp he with rfl | he
    · exact hfirst
    · exact ih hes he

theorem of_stmts {ss : List Stmt} (h : All P (Stmt.treesOfAll ss)) {s : Stmt} (hs : s ∈ ss) :
    All P s.trees := by
  induction ss with
  | nil => cases hs
  | cons first ss ih =>
    obtain ⟨hfirst, hss⟩ := append.mp h
    rcases List.mem_cons.mp hs with rfl | hs
    · exact hfirst
    · exact ih hss hs

theorem of_member {c : ClassDecl} (h : All P [c.tree]) {m : Member} (hm : some m ∈ c.members) :
    All P [m.tree] :=
  (node.mp h).2.of_mem (List.mem_filterMap.mpr ⟨some m, hm, rfl⟩)

theorem of_class {p : Program} (h : All P [p.tree]) {c : ClassDecl} (hc : some c ∈ p.classes) :
    All P [c.tree] :=
  (node.mp h).2.of_mem (List.mem_map.mpr ⟨some c, hc, rfl⟩)

end Tree.All

def Tree.exprs (ts : List (Tree Node)) : List Expr := (Tree.nodesAll ts).filterMap Node.expr?

@[simp] theorem Tree.exprs_nil : Tree.exprs [] = [] := rfl

@[simp] theorem Tree.exprs_append (ts us : List (Tree Node)) :
    Tree.exprs (ts ++ us) = Tree.exprs ts ++ Tree.exprs us := by
  rw [exprs, nodesAll_append, List.filterMap_append, exprs, exprs]

@[simp] theorem Tree.exprs_node (item : Node) (children : List (Tree Node)) :
    Tree.exprs [.node item children] = item.expr?.toList ++ Tree.exprs children := by
  rw [exprs, nodesAll_node, exprs]
  cases h : item.expr? <;> simp [h]

theorem Tree.exprs_map {α : Type} (f : α → Tree Node) (as : List α) :
    Tree.exprs (as.map f) = as.flatMap fun a => Tree.exprs [f a] := by
  induction as with
  | nil => rfl
  | cons a as ih =>
    rw [List.map_cons, ← List.singleton_append, exprs_append, ih, List.flatMap_cons]

/-- What the nodes of the trees have of a kind, in the order of a full walk. -/
def Tree.collect {α : Type} (f : Node → List α) (ts : List (Tree Node)) : List α :=
  (Tree.nodesAll ts).flatMap f

namespace Tree

variable {α : Type} (f : Node → List α)

@[simp] theorem collect_nil : collect f [] = [] := rfl

@[simp] theorem collect_append (ts us : List (Tree Node)) :
    collect f (ts ++ us) = collect f ts ++ collect f us := by
  rw [collect, nodesAll_append, List.flatMap_append, collect, collect]

@[simp] theorem collect_node (item : Node) (children : List (Tree Node)) :
    collect f [.node item children] = f item ++ collect f children := by
  rw [collect, nodesAll_node, List.flatMap_cons, collect]

theorem collect_visited (t : Tree Node) : (t.visited fun _ => true).flatMap f = collect f [t] := by
  rw [visited_all, collect, nodesAll_eq_flatMap, List.flatMap_singleton]

theorem collect_map {β : Type} (g : β → Tree Node) (bs : List β) :
    collect f (bs.map g) = bs.flatMap fun b => collect f [g b] := by
  induction bs with
  | nil => rfl
  | cons b bs ih =>
    rw [List.map_cons, ← List.singleton_append, collect_append, ih, List.flatMap_cons]

end Tree

def Expr.visits (e : Expr) : List Expr := Tree.exprs e.trees

def Stmt.visits (s : Stmt) : List Expr := Tree.exprs s.trees

def Member.visits (m : Member) : List Expr := Tree.exprs [m.tree]

def ClassDecl.visits (c : ClassDecl) : List Expr := Tree.exprs [c.tree]

theorem Expr.exprs_treesOfAll (es : List Expr) :
    Tree.exprs (Expr.treesOfAll es) = es.flatMap Expr.visits := by
  induction es with
  | nil => rfl
  | cons e es ih => rw [Expr.treesOfAll, Tree.exprs_append, ih, List.flatMap_cons, Expr.visits]

theorem Stmt.exprs_treesOfAll (ss : List Stmt) :
    Tree.exprs (Stmt.treesOfAll ss) = ss.flatMap Stmt.visits := by
  induction ss with
  | nil => rfl
  | cons s ss ih => rw [Stmt.treesOfAll, Tree.exprs_append, ih, List.flatMap_cons, Stmt.visits]

namespace Expr

def inner : Expr → List Expr
  | absent | int .. | bool .. | str .. | newObject .. => []
  | var _ receiver _ => receiver.visits
  | element _ receiver _ index => receiver.visits ++ index.visits
  | dispatch _ receiver _ args => receiver.visits ++ args.flatMap visits
  | newArray _ _ size => size.visits
  | instanceOf _ operand _ => operand.visits
  | cast _ _ operand => operand.visits
  | assign _ _ _ value => value.visits
  | assignElement _ _ _ index value => index.visits ++ value.visits
  | binary _ _ left right => left.visits ++ right.visits
  | unary _ _ _ operand => operand.visits

@[simp] theorem visits_absent : visits absent = [] := by
  rw [visits, trees, Tree.exprs_nil]

theorem visits_eq {e : Expr} (he : e ≠ absent) : e.visits = e :: e.inner := by
  cases e with
  | absent => exact absurd rfl he
  | _ => simp [visits, trees, inner, Node.expr?, exprs_treesOfAll]

theorem nodesAll_treesOfAll {es : List Expr}
    (h : ∀ e ∈ es, Tree.nodesAll e.trees = e.visits.map Node.expr) :
    Tree.nodesAll (treesOfAll es) = (es.flatMap visits).map Node.expr := by
  induction es with
  | nil => rfl
  | cons e es ih =>
    rw [treesOfAll, Tree.nodesAll_append, h e List.mem_cons_self,
      ih fun x hx => h x (List.mem_cons_of_mem e hx), List.flatMap_cons, List.map_append]

theorem nodesAll_trees (e : Expr) : Tree.nodesAll e.trees = e.visits.map Node.expr := by
  induction e with
  | absent => rfl
  | int | bool | str | newObject =>
    rw [visits, trees]
    rfl
  | var _ _ _ ih | newArray _ _ _ ih | instanceOf _ _ _ ih | cast _ _ _ ih | assign _ _ _ _ ih
  | unary _ _ _ _ ih =>
    rw [visits, trees, Tree.nodesAll_node, Tree.exprs_node, ih]
    rfl
  | element _ _ _ _ ih ih' | assignElement _ _ _ _ _ ih ih' | binary _ _ _ _ ih ih' =>
    rw [visits, trees, Tree.nodesAll_node, Tree.exprs_node, Tree.nodesAll_append,
      Tree.exprs_append, ih, ih', ← List.map_append]
    rfl
  | dispatch _ _ _ _ ih ih' =>
    rw [visits, trees, Tree.nodesAll_node, Tree.exprs_node, Tree.nodesAll_append,
      Tree.exprs_append, exprs_treesOfAll, ih, nodesAll_treesOfAll ih', ← List.map_append]
    rfl

theorem collect_trees {α : Type} (f : Node → List α) (e : Expr) :
    Tree.collect f e.trees = e.visits.flatMap fun x => f (.expr x) := by
  rw [Tree.collect, nodesAll_trees, List.flatMap_map]

end Expr

namespace Stmt

theorem visits_node {s : Stmt} {children : List (Tree Node)}
    (h : s.trees = [.node (.stmt s) children]) :
    s.visits = Tree.exprs children := by
  rw [visits, h, Tree.exprs_node]
  rfl

theorem visits_decl (line : Int) (name : String) (type : Ty) (init : Expr) :
    (decl line name type init).visits = init.visits := visits_node rfl

theorem visits_expr (line : Int) (value : Expr) : (expr line value).visits = value.visits :=
  visits_node rfl

theorem visits_ifElse (line : Int) (condition : Expr) (thenBranch elseBranch : Stmt) :
    (ifElse line condition thenBranch elseBranch).visits =
      condition.visits ++ thenBranch.visits ++ elseBranch.visits := by
  rw [visits_node rfl, Tree.exprs_append, Tree.exprs_append, Expr.visits, visits, visits]

theorem visits_whileLoop (line : Int) (condition : Expr) (body : Stmt) :
    (whileLoop line condition body).visits = condition.visits ++ body.visits := by
  rw [visits_node rfl, Tree.exprs_append, Expr.visits, visits]

theorem visits_forLoop (line : Int) (init condition update : Expr) (body : Stmt) :
    (forLoop line init condition update body).visits =
      init.visits ++ condition.visits ++ update.visits ++ body.visits := by
  rw [visits_node rfl, Tree.exprs_append, Tree.exprs_append, Tree.exprs_append, Expr.visits,
    Expr.visits, Expr.visits, visits]

theorem visits_block (line : Int) (body : List Stmt) :
    (block line body).visits = body.flatMap visits := by
  rw [visits_node rfl, exprs_treesOfAll]

theorem visits_ret (line : Int) (value : Expr) : (ret line value).visits = value.visits :=
  visits_node rfl

@[simp] theorem visits_absent : visits absent = [] := rfl

@[simp] theorem visits_breakLoop (line : Int) : (breakLoop line).visits = [] :=
  (visits_node rfl).trans Tree.exprs_nil

end Stmt

theorem Member.visits_field (f : Field) : (Member.field f).visits = f.init.visits := by
  simp [visits, tree, Field.tree, Node.expr?, Expr.visits]

theorem Member.visits_method (m : Method) :
    (Member.method m).visits = m.body.flatMap Stmt.visits := by
  have hformals : Tree.exprs (m.formals.map Formal.tree) = [] := by
    rw [Tree.exprs_map]
    simp [Formal.tree, Node.expr?]
  simp [visits, tree, Method.tree, Node.expr?, hformals, Stmt.exprs_treesOfAll]

theorem ClassDecl.visits_eq (c : ClassDecl) :
    c.visits = (c.members.filterMap id).flatMap Member.visits := by
  have htrees : c.members.filterMap (·.map Member.tree) =
      (c.members.filterMap id).map Member.tree := by
    rw [List.map_filterMap]
    rfl
  rw [visits, tree, Tree.exprs_node, htrees, Tree.exprs_map]
  rfl

theorem ClassDecl.exprs_visited (c : ClassDecl) :
    (c.tree.visited fun _ => true).filterMap Node.expr? = c.visits := by
  rw [Tree.visited_all, visits, Tree.exprs, Tree.nodesAll_eq_flatMap]
  simp

theorem Program.exprs_eq (p : Program) :
    p.exprs = (p.classes.filterMap id).flatMap ClassDecl.visits := by
  have hvisited : p.exprs = Tree.exprs [p.tree] := by
    rw [exprs, Tree.visited_all, Tree.exprs, Tree.nodesAll_eq_flatMap]
    simp
  rw [hvisited, tree, Tree.exprs_node, Tree.exprs_map]
  simp only [Node.expr?, Option.toList_none, List.nil_append]
  induction p.classes with
  | nil => rfl
  | cons o rest ih =>
    cases o with
    | none => simpa [Node.expr?] using ih
    | some c => simpa [ClassDecl.visits] using ih

end ClassCheck
