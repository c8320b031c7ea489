import MoveTyping.Catalog.Basic
import MoveTyping.Catalog.Declaration
import MoveTyping.Signature.Parse

/-!
# Loading catalogs

Reads the texts of a catalog's declarations and fills its tables. The first text that cannot be
read stops the loading. Where a module repeats a name, the module lists every declaration and the
table holds the last one.
-/

namespace MoveTyping.Catalog

inductive Error where
  /-- The catalog is not the JSON of a declaration. -/
  | malformed
  | signature (item : String) (cause : SignatureError)
  | unknownPrimitive (item name : String)
  | duplicateModule (module : String)
deriving DecidableEq, Repr

def Error.message : Error → String
  | malformed => "malformed catalog"
  | signature item cause => "in `" ++ item ++ "`: " ++ cause.message
  | unknownPrimitive item name => "unknown primitive alias `" ++ name ++ "` on `" ++ item ++ "`"
  | duplicateModule module => "module `" ++ module ++ "` is declared twice"

/-- The primitives a library struct may stand for. -/
def standInFor? (text : String) : Option Prim :=
  (Prim.string :: Prim.integers ++ [Prim.bool, Prim.address]).find? (·.render == text)

/-- An error in the types of an item, under the name the declaration gives it. -/
def ModuleDecl.locate {α : Type} (d : ModuleDecl) (item : String) :
    Except SignatureError α → Except Error α :=
  Except.mapError (.signature (d.address ++ "::" ++ d.name ++ "::" ++ item))

/-- The names that the types of a module see, before type parameters. -/
def ModuleDecl.scope (aliases : Aliases) (d : ModuleDecl) : Signature.Scope :=
  ⟨aliases, aliases.normalize d.address, d.name, d.structs.map StructDecl.name, []⟩

def loadStruct (aliases : Aliases) (d : ModuleDecl) (s : StructDecl) :
    Except Error (Record × Option Prim) := do
  let scope := d.scope aliases
  let typeParams ← d.locate s.name (s.typeParams.mapM Signature.parseTypeParam)
  let fields ← d.locate s.name (s.fields.mapM fun f => do
    return ⟨f.name, ← Signature.parseType { scope with typeParams } f.type⟩)
  let abilities ← d.locate s.name (Signature.parseAbilities s.abilities)
  let primitive ← match s.primitive with
    | none => pure none
    | some text =>
      match standInFor? text with
      | some kind => pure (some kind)
      | none => .error (.unknownPrimitive (d.address ++ "::" ++ d.name ++ "::" ++ s.name) text)
  let name := .full scope.address d.name s.name
  return (⟨name, abilities, typeParams, fields, s.isEnum, []⟩, primitive)

def loadFunction (aliases : Aliases) (d : ModuleDecl) (f : FunctionDecl) :
    Except Error Function := do
  let scope := d.scope aliases
  let typeParams ← d.locate f.name (f.typeParams.mapM Signature.parseTypeParam)
  let params ← d.locate f.name (f.params.mapM (Signature.parseType { scope with typeParams }))
  let ret ← d.locate f.name (Signature.parseType { scope with typeParams } f.ret)
  return ⟨.full scope.address d.name f.name, ⟨typeParams, params, ret⟩⟩

def loadConstant (aliases : Aliases) (d : ModuleDecl) (c : TypedName) : Except Error Constant := do
  let scope := d.scope aliases
  return ⟨.full scope.address d.name c.name, ← d.locate c.name (Signature.parseType scope c.type)⟩

/-- The catalog with one more module. -/
def addModule (c : Catalog) (d : ModuleDecl) : Except Error Catalog := do
  let address := c.aliases.normalize d.address
  if c.modules.any fun m => m.address = address ∧ m.name = d.name then
    .error (.duplicateModule (d.address ++ "::" ++ d.name))
  else
    let structs ← d.structs.mapM (loadStruct c.aliases d)
    let functions ← d.functions.mapM (loadFunction c.aliases d)
    let constants ← d.constants.mapM (loadConstant c.aliases d)
    return { c with
      modules := c.modules ++ [⟨address, d.name, structs.map Prod.fst, functions, constants⟩]
      structs := structs.foldl (fun t s => t.insert s.1.name s.1) c.structs
      primitives := structs.foldl (fun t s => s.2.elim t (t.insert s.1.name)) c.primitives
      functions := functions.foldl (fun t f => t.insert f.name f) c.functions
      constants := constants.foldl (fun t k => t.insert k.name k.ty) c.constants }

/-- By address, then by name, in the order of code points. -/
def Module.le (a b : Module) : Bool :=
  a.address < b.address || (a.address == b.address && (a.name < b.name || a.name == b.name))

def load (d : Declaration) : Except Error Catalog := do
  let aliases := d.aliases.foldl (fun a p => a.insert p.1 p.2) Aliases.standard
  let c ← d.modules.foldlM addModule { empty with aliases }
  return { c with modules := c.modules.mergeSort Module.le }

end MoveTyping.Catalog
