/-! Operators of the language. Trees number them; a number outside the list stands for an operator
that does not exist, which is kept as such and refused when it is typed. -/

namespace ClassCheck

inductive BinaryOp where
  | add | sub | mul | div | mod
  | eq | ne
  | lt | le | gt | ge
  | and | or
  | unknown
deriving DecidableEq

namespace BinaryOp

def ofCode : Int → BinaryOp
  | 0 => add
  | 1 => sub
  | 2 => mul
  | 3 => div
  | 4 => mod
  | 5 => eq
  | 6 => ne
  | 7 => lt
  | 8 => le
  | 9 => gt
  | 10 => ge
  | 11 => and
  | 12 => or
  | _ => unknown

def text : BinaryOp → String
  | add => "+"
  | sub => "-"
  | mul => "*"
  | div => "/"
  | mod => "%"
  | eq => "=="
  | ne => "!="
  | lt => "<"
  | le => "<="
  | gt => ">"
  | ge => ">="
  | and => "&&"
  | or => "||"
  | unknown => "?"

inductive Family where
  | arithmetic | equality | relational | logical | none
deriving DecidableEq

def family : BinaryOp → Family
  | add | sub | mul | div | mod => .arithmetic
  | eq | ne => .equality
  | lt | le | gt | ge => .relational
  | and | or => .logical
  | unknown => .none

end BinaryOp

inductive UnaryOp where
  | neg | not | incr | decr
  | unknown
deriving DecidableEq

namespace UnaryOp

def ofCode : Int → UnaryOp
  | 0 => neg
  | 1 => not
  | 2 => incr
  | 3 => decr
  | _ => unknown

def text : UnaryOp → String
  | neg => "-"
  | not => "!"
  | incr => "++"
  | decr => "--"
  | unknown => "?"

def updates : UnaryOp → Bool
  | incr | decr => true
  | _ => false

end UnaryOp

end ClassCheck
