import ClassCheck.Operator
import ClassCheck.Ty

/-! Expressions. A node is identified with its value: two occurrences that are equal, tags
included, are one shared node, and nodes that only look alike differ in their tags. -/

namespace ClassCheck

/-- Where an expression stands. The tag sets it apart from expressions that look the same. -/
structure Site where
  tag : Nat
  line : Int
deriving DecidableEq

/-- An expression. `absent` holds the place of one that is not there: an optional part that was
left out, or a required part that is missing. -/
inductive Expr where
  | absent
  | int (site : Site) (value : Int)
  | bool (site : Site) (value : Bool)
  | str (site : Site) (value : String)
  | var (site : Site) (receiver : Expr) (name : String)
  | element (site : Site) (receiver : Expr) (name : String) (index : Expr)
  | dispatch (site : Site) (receiver : Expr) (method : String) (args : List Expr)
  | newObject (site : Site) (className : String)
  | newArray (site : Site) (elemName : String) (size : Expr)
  | instanceOf (site : Site) (operand : Expr) (target : Ty)
  | cast (site : Site) (target : Ty) (operand : Expr)
  | assign (site : Site) (qualifier name : String) (value : Expr)
  | assignElement (site : Site) (qualifier name : String) (index value : Expr)
  | binary (site : Site) (op : BinaryOp) (left right : Expr)
  | unary (site : Site) (op : UnaryOp) (trailing : Bool) (operand : Expr)

namespace Expr

def line : Expr → Int
  | absent => 0
  | int s _ | bool s _ | str s _ | var s .. | element s .. | dispatch s .. | newObject s _
  | newArray s .. | instanceOf s .. | cast s .. | assign s .. | assignElement s .. | binary s ..
  | unary s .. => s.line

def isAbsent : Expr → Bool
  | absent => true
  | _ => false

theorem isAbsent_eq_false {e : Expr} (he : e ≠ absent) : e.isAbsent = false := by
  cases e with
  | absent => exact absurd rfl he
  | _ => rfl

def isStatement : Expr → Bool
  | assign .. | assignElement .. | newObject .. | dispatch .. => true
  | unary _ op _ _ => op.updates
  | _ => false

mutual

def same : Expr → Expr → Bool
  | absent, absent => true
  | int s v, int s' v' => s == s' && v == v'
  | bool s v, bool s' v' => s == s' && v == v'
  | str s v, str s' v' => s == s' && v == v'
  | var s r n, var s' r' n' => s == s' && n == n' && same r r'
  | element s r n i, element s' r' n' i' => s == s' && n == n' && same r r' && same i i'
  | dispatch s r m as, dispatch s' r' m' as' => s == s' && m == m' && same r r' && sameAll as as'
  | newObject s c, newObject s' c' => s == s' && c == c'
  | newArray s c n, newArray s' c' n' => s == s' && c == c' && same n n'
  | instanceOf s e t, instanceOf s' e' t' => s == s' && t == t' && same e e'
  | cast s t e, cast s' t' e' => s == s' && t == t' && same e e'
  | assign s q n v, assign s' q' n' v' => s == s' && q == q' && n == n' && same v v'
  | assignElement s q n i v, assignElement s' q' n' i' v' =>
      s == s' && q == q' && n == n' && same i i' && same v v'
  | binary s o l r, binary s' o' l' r' => s == s' && o == o' && same l l' && same r r'
  | unary s o p e, unary s' o' p' e' => s == s' && o == o' && p == p' && same e e'
  | _, _ => false

def sameAll : List Expr → List Expr → Bool
  | [], [] => true
  | a :: as, b :: bs => same a b && sameAll as bs
  | _, _ => false

end

mutual

theorem same_iff (a b : Expr) : same a b = true ↔ a = b := by
  cases a <;> cases b <;>
    simp only [same, Bool.false_eq_true, reduceCtorEq, Bool.and_eq_true, beq_iff_eq, same_iff,
      sameAll_iff, int.injEq, bool.injEq, str.injEq, var.injEq, element.injEq, dispatch.injEq,
      newObject.injEq, newArray.injEq, instanceOf.injEq, cast.injEq, assign.injEq,
      assignElement.injEq, binary.injEq, unary.injEq] <;>
    grind

theorem sameAll_iff (as bs : List Expr) : sameAll as bs = true ↔ as = bs := by
  cases as <;> cases bs <;> simp [sameAll, same_iff, sameAll_iff]

end

instance : DecidableEq Expr := fun a b => decidable_of_iff _ (same_iff a b)

end Expr

end ClassCheck
