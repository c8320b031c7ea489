import MoveTyping.Address
import MoveTyping.Record

/-!
# Catalogs

A loaded catalog: the modules of a library, with a table of its structs, functions and constants by
qualified name. Every look-up takes any spelling of an address.
-/

namespace MoveTyping

/-- A function over its own type parameters. -/
structure Callable where
  typeParams : List TypeParam
  params : List Ty
  ret : Ty
deriving DecidableEq, Repr

namespace Callable

def paramNames (c : Callable) : List String := c.typeParams.map TypeParam.name

def type (c : Callable) : Ty := .func c.params c.ret

/-- The type arguments of a call: the explicit ones if there are any, otherwise what laying the
parameters over the arguments binds. -/
def arguments (c : Callable) (explicit args : List Ty) : Subst :=
  if explicit.isEmpty then
    (c.params.zip args).foldl (fun s p => s.bindMatching c.paramNames p.1 p.2) ∅
  else .ofArgs c.paramNames explicit

/-- The type of a call. -/
def result (c : Callable) (explicit args : List Ty) : Ty := (c.arguments explicit args).apply c.ret

end Callable

namespace Catalog

structure Function where
  name : QName
  callable : Callable
deriving DecidableEq, Repr

structure Constant where
  name : QName
  ty : Ty
deriving DecidableEq, Repr

structure Module where
  /-- The normal form of the address. -/
  address : String
  name : String
  structs : List Record
  functions : List Function
  constants : List Constant
deriving DecidableEq, Repr

end Catalog

structure Catalog where
  aliases : Aliases
  /-- In the order of their addresses and names. -/
  modules : List Catalog.Module
  structs : Table QName Record
  primitives : Table QName Prim
  functions : Table QName Catalog.Function
  constants : Table QName Ty

namespace Catalog

/-- No library at all; the standard aliases remain. -/
def empty : Catalog := ⟨.standard, [], ∅, ∅, ∅, ∅⟩

instance : Inhabited Catalog := ⟨empty⟩

def normalize (c : Catalog) (name : QName) : QName :=
  { name with address := name.address.map c.aliases.normalize }

def module? (c : Catalog) (address name : String) : Option Module :=
  c.modules.find? fun m => m.address = c.aliases.normalize address ∧ m.name = name

def record? (c : Catalog) (name : QName) : Option Record := c.structs.get? (c.normalize name)

def isStruct (c : Catalog) (name : QName) : Bool := (c.record? name).isSome

/-- The primitive type that a library struct stands for. -/
def primitive? (c : Catalog) (name : QName) : Option Prim := c.primitives.get? (c.normalize name)

def function? (c : Catalog) (name : QName) : Option Function := c.functions.get? (c.normalize name)

def constant? (c : Catalog) (name : QName) : Option Ty := c.constants.get? (c.normalize name)

end Catalog

end MoveTyping
