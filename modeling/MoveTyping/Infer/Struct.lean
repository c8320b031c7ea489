import MoveTyping.Infer.Declaration
import MoveTyping.Infer.Rule

/-!
# Struct literals and fields

A struct literal has the type of its struct. Type arguments are the explicit ones, or are found by
laying the declared types of the fields over the types of their initialisers; a parameter that
nothing binds stays a variable.
-/

namespace MoveTyping

namespace Record

/-- What the initialiser of a field says about the type arguments. -/
def bindField (r : Record) (s : Subst) (init : String × Ty) : Subst :=
  match r.field? init.1 with
  | some f => s.bindMatching r.paramNames f.ty init.2
  | none => s

/-- The type of a literal of this struct with explicit type arguments and initialisers. -/
def literalType (r : Record) (explicit : List Ty) (inits : List (String × Ty)) : Ty :=
  if !explicit.isEmpty || r.typeParams.isEmpty then .ofName r.name explicit
  else (inits.foldl r.bindField ∅).apply r.declaredType

end Record

namespace Env

/-- The names and types of the field initialisers among some nodes. -/
def initsRule (env : Env) (nodes : List NodeId) : Rule (List (String × Ty)) :=
  let inits := nodes.filterMap fun node =>
    match env.program.kind? node with
    | some (.fieldInit name value) => some (name, value)
    | _ => none
  inits.mapM fun (name, value) => return (name, ← Rule.typeOf value)

/-- The record of the struct that the target of a literal names. -/
def targetRule (env : Env) (target : NodeId) : Rule (Option Record) :=
  match env.resolver.resolve target with
  | some decl => .read decl.file (return env.structRecord? decl)
  | none => return (env.resolver.canonical target).bind env.catalog.record?

def packRule (env : Env) (target : NodeId) (fields : Slice) : Rule Ty := do
  let inits ← env.initsRule (env.program.list target.file fields)
  match env.program.kind? target with
  | some (.path _ typeArgs) =>
    match ← env.targetRule target with
    | some r =>
      let explicit ← Rule.reading (env.denoteAll (env.program.list target.file typeArgs))
      return r.literalType explicit inits
    | none => return .unknown
  | _ => return .unknown

/-- The type of a field, which may be behind references. -/
def fieldRule (base : NodeId) (field : String) : Rule Ty := do
  match (← Rule.typeOf base).nominal? with
  | some (name, args) =>
    return ((← Rule.record? name).bind (·.fieldType? field args)).getD .unknown
  | none => return .unknown

end Env

end MoveTyping
