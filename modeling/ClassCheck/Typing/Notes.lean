import ClassCheck.Expr

/-! What typing writes down about expressions. The first type of a node stays; the mark of a cast
is set anew each time the cast is typed. -/

namespace ClassCheck

structure Notes where
  types : List (Expr × Ty)
  upcasts : List Expr

namespace Notes

def empty : Notes := ⟨[], []⟩

def typeOf? (n : Notes) (e : Expr) : Option Ty := n.types.lookup e

def isUpcast (n : Notes) (e : Expr) : Bool := n.upcasts.contains e

/-- Notes the type of a node that has none yet. -/
def record (n : Notes) (e : Expr) (t : Ty) : Notes :=
  match n.typeOf? e with
  | some _ => n
  | none => { n with types := (e, t) :: n.types }

def settled (n : Notes) (e : Expr) (t : Ty) : Ty := (n.typeOf? e).getD t

def markCast (n : Notes) (e : Expr) (up : Bool) : Notes :=
  { n with upcasts := if up then n.upcasts.insert e else n.upcasts.filter (· != e) }

theorem typeOf?_record (n : Notes) (e : Expr) (t : Ty) (other : Expr) :
    (n.record e t).typeOf? other =
      if other = e then some (n.settled e t) else n.typeOf? other := by
  cases known : n.typeOf? e with
  | some old => by_cases h : other = e <;> simp [record, settled, known, h]
  | none =>
    have recorded : n.record e t = { n with types := (e, t) :: n.types } := by
      simp [record, known]
    by_cases h : other = e
    · have kept : n.settled e t = t := by simp [settled, known]
      simp [recorded, kept, h, typeOf?]
    · have differs : (other == e) = false := beq_eq_false_iff_ne.mpr h
      simp [recorded, h, typeOf?, List.lookup_cons, differs]

@[simp] theorem isUpcast_record (n : Notes) (e : Expr) (t : Ty) (other : Expr) :
    (n.record e t).isUpcast other = n.isUpcast other := by
  unfold record
  split <;> rfl

@[simp] theorem typeOf?_markCast (n : Notes) (e : Expr) (up : Bool) (other : Expr) :
    (n.markCast e up).typeOf? other = n.typeOf? other := rfl

theorem isUpcast_markCast (n : Notes) (e : Expr) (up : Bool) (other : Expr) :
    (n.markCast e up).isUpcast other = if other = e then up else n.isUpcast other := by
  cases up <;> by_cases h : other = e <;>
    simp [markCast, isUpcast, h, List.mem_insert_iff]

end Notes

end ClassCheck
