import MoveTyping.Infer.Binding
import MoveTyping.Infer.Branch
import MoveTyping.Infer.Call
import MoveTyping.Infer.Sequence
import MoveTyping.Infer.Struct

/-!
# The rule of a node

Each kind of node has its rule. Modules, imports, ability keywords, statements and tuple patterns
have no type; any other node has one, which may be unknown.
-/

namespace MoveTyping.Env

/-- The rule for a node of a given kind. -/
def kindRule (env : Env) (node : NodeId) : NodeKind → Rule (Option Ty)
  | .literal text => return Literal.type text
  | .path _ typeArgs => some <$> env.pathRule node typeArgs
  | .call callee args => some <$> env.callRule callee args
  | .binary op lhs rhs => some <$> env.binaryRule op lhs rhs
  | .unary op operand => some <$> unaryRule op operand
  | .pack target fields => some <$> env.packRule target fields
  | .fieldInit _ value => some <$> .typeOf value
  | .vector elemTy elems => some <$> env.vectorRule node elemTy elems
  | .tuple elems => some <$> env.tupleRule node elems
  | .index base _ => some <$> indexRule base
  | .block stmts => some <$> env.blockRule node stmts
  | .ifElse _ thenBranch elseBranch => some <$> env.ifRule thenBranch elseBranch
  | .whileLoop .. | .loop .. | .assign .. => return Ty.unit
  | .returnExpr .. | .abort .. | .breakExpr | .continueExpr => return Ty.unknown
  | .cast _ ty => some <$> .reading (env.denote ty)
  | .fieldAccess base field => some <$> fieldRule base field
  | .function .. =>
    match env.signature? node with
    | some (callable, files) => some <$> .reading (callable.type, files)
    | none => return none
  | .struct .. => return (env.structRecord? node).map Record.declaredType
  | .const _ ty value => some <$> env.annotatedRule ty value
  | .param .. => some <$> .reading (env.paramType node)
  | .typeParam name bounds _ => return Ty.var name (env.abilities node.file bounds)
  | .fieldDecl _ ty => some <$> .reading (env.denote ty)
  | .bindName _ => some <$> env.bindingRule node
  | .typePath .. | .typeRef .. | .typeTuple .. => some <$> .reading (env.denote node)
  | .error => return Ty.unknown
  | .module .. | .use .. | .ability _ | .letStmt .. | .bindTuple _ | .exprStmt .. => return none

/-- The rule by which the type of a node is derived. -/
def rule (env : Env) (node : NodeId) : Rule (Option Ty) :=
  match env.program.kind? node with
  | some kind => env.kindRule node kind
  | none => return none

end MoveTyping.Env
