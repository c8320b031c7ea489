import MoveTyping.Infer.Declaration
import MoveTyping.Infer.Rule
import MoveTyping.Ty.Unify

/-!
# Blocks and branches

A block has the type of its last statement when that is an expression without a semicolon, and unit
otherwise. The branches of an `if` have to unify; a branch that never ends normally takes no part.
-/

namespace MoveTyping.Env

/-- The expression whose value is the value of a last statement. -/
def tailExpr? (env : Env) (stmt : NodeId) : Option NodeId :=
  match env.program.kind? stmt with
  | some (.exprStmt expr false) => some expr
  | some kind => if kind.isExpr then some stmt else none
  | none => none

def blockRule (env : Env) (node : NodeId) (stmts : Slice) : Rule Ty :=
  match (env.program.list node.file stmts).getLast?.bind env.tailExpr? with
  | some expr => .typeOf expr
  | none => return .unit

/-- Whether a node never ends normally, looking at most `depth` levels deep. -/
def divergesWithin (env : Env) : (depth : Nat) → NodeId → Bool
  | 0, _ => false
  | depth + 1, node =>
    match env.program.kind? node with
    | none => false
    | some kind =>
      kind.isDiverging ||
        match kind with
        | .block stmts =>
          (env.program.list node.file stmts).getLast?.any (env.divergesWithin depth)
        | .exprStmt expr _ => env.divergesWithin depth expr
        | .ifElse _ thenBranch (some elseBranch) =>
          env.divergesWithin depth thenBranch && env.divergesWithin depth elseBranch
        | _ => false

/-- Whether a node never ends normally: it leaves, ends with what leaves, or leaves on both
branches. -/
def diverges (env : Env) (node : NodeId) : Bool :=
  env.divergesWithin DepthLimit.standard.limit node

/-- The type of the `else` branch. Without one it is unit. -/
def elseRule : Option NodeId → Rule Ty
  | some elseBranch => .typeOf elseBranch
  | none => return .unit

def ifRule (env : Env) (thenBranch : NodeId) (elseBranch : Option NodeId) : Rule Ty :=
  match env.diverges thenBranch, elseBranch.any env.diverges with
  | true, true => return .unknown
  | true, false => elseRule elseBranch
  | false, true => .typeOf thenBranch
  | false, false => do
    let onTrue ← .typeOf thenBranch
    let onFalse ← elseRule elseBranch
    return (Ty.unify? onTrue onFalse).getD .unknown

end MoveTyping.Env
