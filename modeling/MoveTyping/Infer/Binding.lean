import MoveTyping.Infer.Declaration
import MoveTyping.Infer.Rule

/-!
# Names

A reference has the type of what it resolves to. A constant or a `let` has the type of its
annotation, or else of its initialiser, and a name in a tuple pattern has the component at its place
in the pattern.
-/

namespace MoveTyping

/-- The component of a tuple type. -/
def Ty.component : Ty → Nat → Ty
  | tuple elems, i => elems[i]?.getD unknown
  | _, _ => unknown

/-- Where a name is bound: the places from the outside of the pattern to the name, and annotation
and initialiser of the `let`. -/
structure BindingSite where
  places : List Nat
  ty : Option NodeId
  init : Option NodeId
deriving DecidableEq, Repr

namespace Env

/-- The site of a part of a pattern, `inner` being the places from that part to the name. Patterns
are nested no deeper than there are nodes, which bounds the fuel. -/
def siteWithin? (env : Env) : (fuel : Nat) → NodeId → (inner : List Nat) → Option BindingSite
  | 0, _, _ => none
  | fuel + 1, part, inner => do
    let parent ← env.program.parent? part
    match ← env.program.kind? parent with
    | .bindTuple elems =>
      let place ← (env.program.list parent.file elems).idxOf? part
      env.siteWithin? fuel parent (place :: inner)
    | .letStmt pattern ty init => if pattern = part then some ⟨inner, ty, init⟩ else none
    | _ => none

def bindingSite? (env : Env) (name : NodeId) : Option BindingSite := do
  let t ← env.program.tree? name.file
  env.siteWithin? (t.size + 1) name []

/-- The annotated type, or else the type of the initialiser. -/
def annotatedRule (env : Env) (ty init : Option NodeId) : Rule Ty :=
  match ty, init with
  | some ty, _ => .reading (env.denote ty)
  | none, some init => .typeOf init
  | none, none => return .unknown

/-- The type of a name bound by a `let`. -/
def bindingRule (env : Env) (name : NodeId) : Rule Ty :=
  match env.bindingSite? name with
  | some site => return site.places.foldl Ty.component (← env.annotatedRule site.ty site.init)
  | none => return .unknown

/-- The type of a library constant or function. -/
def libraryValue (env : Env) (node : NodeId) (explicit : List Ty) : Ty :=
  match env.resolver.canonical node with
  | none => .unknown
  | some name =>
    match env.catalog.constant? name, env.catalog.function? name with
    | some t, _ => t
    | none, some f => (Subst.ofArgs f.callable.paramNames explicit).apply f.callable.type
    | none, none => .unknown

/-- The names of the type parameters that a function or struct declares. -/
def genericNames (env : Env) (decl : NodeId) : List String :=
  match env.program.kind? decl with
  | some (.function _ typeParams ..) | some (.struct _ typeParams ..) =>
    (env.typeParams decl.file typeParams).map TypeParam.name
  | _ => []

/-- The type of a reference, with explicit type arguments in the place of parameters. -/
def pathRule (env : Env) (node : NodeId) (typeArgs : Slice) : Rule Ty := do
  let explicit ← Rule.reading (env.denoteAll (env.program.list node.file typeArgs))
  match env.resolver.resolve node with
  | none => return env.libraryValue node explicit
  | some decl => return (Subst.ofArgs (env.genericNames decl) explicit).apply (← .typeOf decl)

end Env

end MoveTyping
