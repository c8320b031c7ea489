/-!
# Catalog declarations

A catalog declares library modules. Its declarations spell types, type parameters and abilities as
texts; loading the catalog reads them.
-/

namespace MoveTyping.Catalog

/-- A name with the text of its type. -/
structure TypedName where
  name : String
  type : String

structure StructDecl where
  name : String
  abilities : List String := []
  typeParams : List String := []
  fields : List TypedName := []
  isEnum : Bool := false
  /-- The primitive type that the struct stands for. -/
  primitive : Option String := none

structure FunctionDecl where
  name : String
  typeParams : List String := []
  params : List String := []
  ret : String := "()"

structure ModuleDecl where
  address : String
  name : String
  structs : List StructDecl := []
  functions : List FunctionDecl := []
  constants : List TypedName := []

structure Declaration where
  /-- Named addresses, added to the standard ones. -/
  aliases : List (String × String) := []
  modules : List ModuleDecl

end MoveTyping.Catalog
