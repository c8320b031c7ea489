import MoveTyping.Infer.Declaration
import MoveTyping.Infer.Rule
import MoveTyping.Literal

/-!
# Operators

Integer operators want operands of one type, without widening. An integer literal without a suffix
takes the type of the other operand.
-/

namespace MoveTyping

/-- The type of an operand, and whether it is an integer literal without a suffix. -/
structure Operand where
  ty : Ty
  untyped : Bool
deriving DecidableEq, Repr

namespace Operand

/-- The types of two operands, where a literal adopts the integer type of the other side. -/
def adapt (l r : Operand) : Ty × Ty :=
  if l.untyped && !r.untyped && r.ty.isInteger then (r.ty, r.ty)
  else if r.untyped && !l.untyped && l.ty.isInteger then (l.ty, l.ty)
  else (l.ty, r.ty)

end Operand

/-- The type of a binary operation. The amount of a shift is a `u8`. -/
def BinaryOp.type (op : BinaryOp) (l r : Operand) : Ty :=
  match op.family with
  | .arithmetic | .bitwise =>
    let (left, right) := l.adapt r
    if left = right ∧ left.isInteger then left else .unknown
  | .comparison => .prim .bool
  | .logical => if l.ty = .prim .bool ∧ r.ty = .prim .bool then .prim .bool else .unknown
  | .shift => if l.ty.isInteger ∧ (r.ty = .prim .u8 ∨ r.untyped) then l.ty else .unknown

/-- The type of a unary operation. -/
def UnaryOp.type (op : UnaryOp) (t : Ty) : Ty :=
  match op with
  | .not => if t = .prim .bool then t else .unknown
  | .neg => if t.isInteger then t else .unknown
  | .deref =>
    match t with
    | .ref inner _ => inner
    | _ => .unknown
  | .borrow => .ref t false
  | .borrowMut => .ref t true
  | .move | .copy => t

namespace Env

def isUntyped (env : Env) (node : NodeId) : Bool :=
  match env.program.kind? node with
  | some (.literal text) => Literal.isUnsuffixed text
  | _ => false

def operand (env : Env) (node : NodeId) : Rule Operand :=
  return ⟨← .typeOf node, env.isUntyped node⟩

def binaryRule (env : Env) (op : BinaryOp) (lhs rhs : NodeId) : Rule Ty := do
  let l ← env.operand lhs
  let r ← env.operand rhs
  return op.type l r

def unaryRule (op : UnaryOp) (operand : NodeId) : Rule Ty := return op.type (← .typeOf operand)

end Env

end MoveTyping
