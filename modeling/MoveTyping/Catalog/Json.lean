import MoveTyping.Catalog.Load
import MoveTyping.Json.Decode

/-!
# Catalogs in JSON

The JSON form of a catalog's declarations.
-/

namespace MoveTyping.Catalog

open Json (toString? toBool? toOption? toList? toPairs?)

def TypedName.ofJson? (j : Json) : Option TypedName := do
  let f ← j.fields? ["name", "type"]
  return ⟨← f.required "name" toString?, ← f.required "type" toString?⟩

def StructDecl.ofJson? (j : Json) : Option StructDecl := do
  let f ← j.fields? ["name", "abilities", "type_params", "fields", "is_enum", "primitive"]
  return {
    name := ← f.required "name" toString?
    abilities := ← f.optional "abilities" [] (toList? toString?)
    typeParams := ← f.optional "type_params" [] (toList? toString?)
    fields := ← f.optional "fields" [] (toList? TypedName.ofJson?)
    isEnum := ← f.optional "is_enum" false toBool?
    primitive := ← f.optional "primitive" none (toOption? toString?) }

def FunctionDecl.ofJson? (j : Json) : Option FunctionDecl := do
  let f ← j.fields? ["name", "type_params", "params", "ret"]
  return {
    name := ← f.required "name" toString?
    typeParams := ← f.optional "type_params" [] (toList? toString?)
    params := ← f.optional "params" [] (toList? toString?)
    ret := ← f.optional "ret" "()" toString? }

def ModuleDecl.ofJson? (j : Json) : Option ModuleDecl := do
  let f ← j.fields? ["address", "name", "structs", "functions", "constants"]
  return {
    address := ← f.required "address" toString?
    name := ← f.required "name" toString?
    structs := ← f.optional "structs" [] (toList? StructDecl.ofJson?)
    functions := ← f.optional "functions" [] (toList? FunctionDecl.ofJson?)
    constants := ← f.optional "constants" [] (toList? TypedName.ofJson?) }

def Declaration.ofJson? (j : Json) : Option Declaration := do
  let f ← j.fields? ["aliases", "modules"]
  return {
    aliases := ← f.optional "aliases" [] (toPairs? toString?)
    modules := ← f.required "modules" (toList? ModuleDecl.ofJson?) }

/-- The catalog that a JSON text declares. -/
def parse (text : String) : Except Error Catalog :=
  match Json.parse? text >>= Declaration.ofJson? with
  | some d => load d
  | none => .error .malformed

end MoveTyping.Catalog
