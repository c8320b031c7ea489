/-!
# Operators

The operators of expressions. Binary operators fall into families, and each family has one typing
rule.
-/

namespace MoveTyping

inductive BinaryOp where
  | add | sub | mul | div | mod
  | eq | ne | lt | le | gt | ge
  | and | or
  | bitAnd | bitOr | bitXor
  | shl | shr
deriving DecidableEq, Repr

inductive OpFamily where
  | arithmetic | comparison | logical | bitwise | shift
deriving DecidableEq, Repr

namespace BinaryOp

def symbol : BinaryOp → String
  | add => "+"
  | sub => "-"
  | mul => "*"
  | div => "/"
  | mod => "%"
  | eq => "=="
  | ne => "!="
  | lt => "<"
  | le => "<="
  | gt => ">"
  | ge => ">="
  | and => "&&"
  | or => "||"
  | bitAnd => "&"
  | bitOr => "|"
  | bitXor => "^"
  | shl => "<<"
  | shr => ">>"

def all : List BinaryOp :=
  [add, sub, mul, div, mod, eq, ne, lt, le, gt, ge, and, or, bitAnd, bitOr, bitXor, shl, shr]

def ofSymbol? (symbol : String) : Option BinaryOp := all.find? (·.symbol == symbol)

def family : BinaryOp → OpFamily
  | add | sub | mul | div | mod => .arithmetic
  | eq | ne | lt | le | gt | ge => .comparison
  | and | or => .logical
  | bitAnd | bitOr | bitXor => .bitwise
  | shl | shr => .shift

end BinaryOp

inductive UnaryOp where
  | not | neg | deref | borrow | borrowMut | move | copy
deriving DecidableEq, Repr

namespace UnaryOp

def symbol : UnaryOp → String
  | not => "!"
  | neg => "-"
  | deref => "*"
  | borrow => "&"
  | borrowMut => "&mut"
  | move => "move"
  | copy => "copy"

def all : List UnaryOp := [not, neg, deref, borrow, borrowMut, move, copy]

def ofSymbol? (symbol : String) : Option UnaryOp := all.find? (·.symbol == symbol)

end UnaryOp

end MoveTyping
