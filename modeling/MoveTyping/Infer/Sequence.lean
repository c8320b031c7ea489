import MoveTyping.Infer.Operator
import MoveTyping.Ty.Unify

/-!
# Vectors and tuples

The elements of a vector have one type. Integer literals without a suffix take the type of the
first integer that has one. An empty vector takes its type from the annotation of the `let` that it
initialises.
-/

namespace MoveTyping

namespace Operand

/-- The integer type that the literals among some operands adopt. -/
def adopted? (ops : List Operand) : Option Ty :=
  (ops.find? fun o => !o.untyped && o.ty.isInteger).map Operand.ty

/-- The types of operands, where the literals have adopted a type. -/
def adaptAll (ops : List Operand) : List Ty :=
  match adopted? ops with
  | some t => ops.map fun o => if o.untyped then t else o.ty
  | none => ops.map Operand.ty

/-- The type of a vector of these elements. -/
def vectorType (ops : List Operand) : Ty :=
  ((Ty.unifyAll? (adaptAll ops)).map Ty.vector).getD .unknown

end Operand

namespace Env

/-- The annotation of the `let` whose initialiser is `node`. -/
def annotationAtUse? (env : Env) (node : NodeId) : Option NodeId := do
  match ← env.program.kind? (← env.program.parent? node) with
  | .letStmt _ (some ty) (some init) => if init = node then some ty else none
  | _ => none

/-- The type of an empty vector. -/
def emptyVectorRule (env : Env) (node : NodeId) : Rule Ty :=
  match env.annotationAtUse? node with
  | some ty => do
    let t ← Rule.reading (env.denote ty)
    return if t.element?.isSome then t else .unknown
  | none => return .unknown

def vectorRule (env : Env) (node : NodeId) (elemTy : Option NodeId) (elems : Slice) : Rule Ty :=
  let elems := env.program.list node.file elems
  match elemTy with
  | some ty => do
    let _ ← Rule.typesOf elems
    return .vector (← Rule.reading (env.denote ty))
  | none =>
    if elems.isEmpty then env.emptyVectorRule node
    else return Operand.vectorType (← elems.mapM env.operand)

def tupleRule (env : Env) (node : NodeId) (elems : Slice) : Rule Ty :=
  return .ofElems (← Rule.typesOf (env.program.list node.file elems))

/-- The element of a vector, which may be behind references. -/
def indexRule (base : NodeId) : Rule Ty := return (← Rule.typeOf base).element?.getD .unknown

end Env

end MoveTyping
