import MoveTyping.Infer.Declaration
import MoveTyping.Infer.Rule

/-!
# Calls

A callee is a function of the program, a value of function type, or a library function. The type of
a call is the result of the callee with its type parameters replaced by the explicit type arguments,
or by what the arguments of the call say they are.

The type arguments of a call are also checked against the bounds of the parameters.
-/

namespace MoveTyping

/-- A callee with the type arguments written at the call. -/
structure Callee where
  callable : Callable
  explicit : List Ty
deriving DecidableEq, Repr

/-- A type argument that lacks abilities which its parameter requires. -/
structure BoundViolation where
  call : NodeId
  param : String
  ty : Ty
  required : AbilitySet
  missing : AbilitySet
deriving DecidableEq, Repr

namespace Env

/-- What calling a declaration means. -/
def callableRule (env : Env) (decl : NodeId) : Rule (Option Callable) :=
  match env.program.kind? decl with
  | none => return none
  | some (.function ..) =>
    match env.signature? decl with
    | some (callable, files) => return some (← Rule.reading (callable, files))
    | none => return none
  | some _ => do
    match ← Rule.typeOf decl with
    | .func params ret => return some ⟨[], params, ret⟩
    | _ => return none

/-- What the name of a callee stands for. -/
def targetCallableRule (env : Env) (callee : NodeId) : Rule (Option Callable) :=
  match env.resolver.resolve callee with
  | some decl => .read decl.file (env.callableRule decl)
  | none => return ((env.resolver.canonical callee).bind env.catalog.function?).map (·.callable)

def calleeRule (env : Env) (callee : NodeId) : Rule (Option Callee) :=
  match env.program.kind? callee with
  | some (.path _ typeArgs) => do
    let explicit ← Rule.reading (env.denoteAll (env.program.list callee.file typeArgs))
    return (← env.targetCallableRule callee).map (⟨·, explicit⟩)
  | _ => return none

/-- The types of the arguments of a call. -/
def argumentsRule (env : Env) (callee : NodeId) (args : Slice) : Rule (List Ty) :=
  .typesOf (env.program.list callee.file args)

def callRule (env : Env) (callee : NodeId) (args : Slice) : Rule Ty := do
  let args ← env.argumentsRule callee args
  match ← env.calleeRule callee with
  | some c => return c.callable.result c.explicit args
  | none => return .unknown

/-! ## Bounds -/

/-- The violation at one type parameter, where `arguments` are the type arguments of the call. A
parameter without an argument, or with one that is not fully known, is not reported. -/
def boundRule (call : NodeId) (arguments : Subst) (param : TypeParam) :
    Rule (Option BoundViolation) :=
  match arguments.get? param.name with
  | none => return none
  | some ty =>
    if param.bounds.isEmpty || ty.hasUnknown then return none
    else do
      let missing := param.bounds \ (← Rule.abilities ty)
      return if missing.isEmpty then none else some ⟨call, param.name, ty, param.bounds, missing⟩

/-- The type arguments of a call that violate a bound. -/
def boundsRule (env : Env) (call : NodeId) : Rule (List BoundViolation) :=
  match env.program.kind? call with
  | some (.call callee args) => do
    let args ← env.argumentsRule callee args
    match ← env.calleeRule callee with
    | some c =>
      let arguments := c.callable.arguments c.explicit args
      return (← c.callable.typeParams.mapM (boundRule call arguments)).filterMap id
    | none => return []
  | _ => return []

end Env

end MoveTyping
