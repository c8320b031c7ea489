import MoveTyping.Infer.Env
import MoveTyping.Settings

/-!
# Annotations

The type that an annotation denotes, with the files of the structs it names. Primitive types and
`vector` are keywords. Another name is resolved: a type parameter becomes a variable with its
bounds, a struct becomes its full name, and a name that is not live is looked up in the library.
-/

namespace MoveTyping.Env

/-- The type of a simple name that is a keyword. -/
def keywordType? (path : QName) (args : List Ty) : Option Ty :=
  if path.isSimple then
    if path.name = "vector" then some (.generic .vector args)
    else (Prim.ofKeyword? path.name).map Ty.prim
  else none

/-- The type that only the library knows. -/
def libraryType (env : Env) (node : NodeId) (args : List Ty) : Ty :=
  match env.resolver.canonical node with
  | none => .unknown
  | some name =>
    match env.catalog.primitive? name with
    | some kind => .prim kind
    | none =>
      if name = .stdString ∨ env.catalog.isStruct name then .ofName name args else .unknown

/-- The type of a name that is not a keyword. -/
def namedType (env : Env) (node : NodeId) (args : List Ty) : Ty × List FileId :=
  match (env.resolver.resolve node).bind fun decl => (env.program.kind? decl).map (decl, ·) with
  | some (decl, .typeParam name bounds _) => (.var name (env.abilities decl.file bounds), [])
  | some (decl, .struct ..) =>
    (((env.itemName? decl).map fun name => Ty.ofName name args).getD .unknown, [decl.file])
  | _ => (env.libraryType node args, [])

/-- The type of an annotation nested at most `depth` levels; what lies deeper is unknown. -/
def denoteWithin (env : Env) : (depth : Nat) → NodeId → Ty × List FileId
  | 0, _ => (.unknown, [])
  | depth + 1, node =>
    match env.program.kind? node with
    | some (.typeRef mutable inner) =>
      let (t, files) := env.denoteWithin depth inner
      (.ref t mutable, files)
    | some (.typeTuple elems) =>
      let parts := (env.program.list node.file elems).map (env.denoteWithin depth)
      (.ofElems (parts.map Prod.fst), parts.flatMap Prod.snd)
    | some (.typePath path args) =>
      let parts := (env.program.list node.file args).map (env.denoteWithin depth)
      let args := parts.map Prod.fst
      let (t, files) := match keywordType? path args with
        | some t => (t, [])
        | none => env.namedType node args
      (t, parts.flatMap Prod.snd ++ files)
    | _ => (.unknown, [])

/-- The type that an annotation denotes, and the files it was derived from. -/
def denote (env : Env) (node : NodeId) : Ty × List FileId :=
  env.denoteWithin DepthLimit.standard.limit node

/-- The types of several annotations. -/
def denoteAll (env : Env) (nodes : List NodeId) : List Ty × List FileId :=
  let parts := nodes.map env.denote
  (parts.map Prod.fst, parts.flatMap Prod.snd)

end MoveTyping.Env
