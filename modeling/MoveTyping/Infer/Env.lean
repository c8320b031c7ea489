import MoveTyping.Catalog.Basic
import MoveTyping.Scope.Qualify

/-!
# What inference reads

The live program, a resolver for its references, and the library. None of them changes while types
are inferred.
-/

namespace MoveTyping

/-- Which declaration a reference denotes, and the full name of a reference that has one. -/
structure Resolver where
  resolve : NodeId → Option NodeId
  canonical : NodeId → Option QName

namespace Resolver

/-- Resolution by scopes. -/
def ofScope (s : Scope) : Resolver := ⟨s.resolve?, s.canonicalPath?⟩

/-- Resolution by a fixed table, of which the first row of a reference counts. -/
def ofTable (rows : List (NodeId × NodeId)) : Resolver where
  resolve reference := (rows.find? (·.1 = reference)).map Prod.snd
  canonical _ := none

end Resolver

structure Env where
  program : Program
  resolver : Resolver
  catalog : Catalog

namespace Env

/-- The environment in which names are resolved by the scopes of the program. -/
def ofProgram (program : Program) (catalog : Catalog) : Env :=
  ⟨program, .ofScope ⟨program, catalog.aliases⟩, catalog⟩

/-- The abilities that a slice of ability nodes spells. Unknown keywords are left out. -/
def abilities (env : Env) (file : FileId) (s : Slice) : AbilitySet :=
  .ofKeywords <| (env.program.list file s).filterMap fun id =>
    match env.program.kind? id with
    | some (.ability keyword) => some keyword
    | _ => none

/-- The type parameters that a slice declares. -/
def typeParams (env : Env) (file : FileId) (s : Slice) : List TypeParam :=
  (env.program.list file s).filterMap fun id =>
    match env.program.kind? id with
    | some (.typeParam name bounds phantom) => some ⟨name, env.abilities file bounds, phantom⟩
    | _ => none

/-- The full name of a module's item. -/
def itemName? (env : Env) (decl : NodeId) : Option QName := do
  let name ← (← env.program.kind? decl).declaredName?
  let (address, module) ← env.program.identity? (← env.program.parent? decl)
  return .full (env.catalog.aliases.normalize address) module name

end Env

end MoveTyping
