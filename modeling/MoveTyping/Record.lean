import MoveTyping.Ty.Subst

/-!
# Struct records

What is known about a declared struct or enum: its abilities, type parameters and fields.
-/

namespace MoveTyping

structure TypeParam where
  name : String
  bounds : AbilitySet
  phantom : Bool
deriving DecidableEq, Repr

structure Field where
  name : String
  ty : Ty
deriving DecidableEq, Repr

structure Record where
  name : QName
  abilities : AbilitySet
  typeParams : List TypeParam
  fields : List Field
  isEnum : Bool
  supertypes : List QName
deriving DecidableEq, Repr

namespace Record

def paramNames (r : Record) : List String := r.typeParams.map TypeParam.name

def field? (r : Record) (name : String) : Option Field := r.fields.find? (·.name = name)

/-- The type of a field in the struct with these arguments. Without arguments it is the declared
type. -/
def fieldType? (r : Record) (name : String) (args : List Ty) : Option Ty :=
  (r.field? name).map fun f =>
    if args.isEmpty || r.typeParams.isEmpty then f.ty
    else (Subst.ofArgs r.paramNames args).apply f.ty

/-- Positions past the declared parameters are not phantom. -/
def isPhantom (r : Record) (index : Nat) : Bool := r.typeParams[index]?.any TypeParam.phantom

/-- The struct over its own type parameters. -/
def declaredType (r : Record) : Ty :=
  .ofName r.name (r.typeParams.map fun p => .var p.name p.bounds)

end Record

end MoveTyping
