import MoveTyping.Infer.Annotation

/-!
# Declarations

What a declaration of the live program says: the record of a struct, the type parameters,
parameters and result of a function. Annotations are enough for both; no other node is asked for
its type.
-/

namespace MoveTyping.Env

/-- The record of a struct. -/
def structRecord? (env : Env) (decl : NodeId) : Option Record :=
  match env.program.kind? decl with
  | some (.struct _ typeParams abilities fields isEnum) =>
    (env.itemName? decl).map fun name =>
      { name
        abilities := env.abilities decl.file abilities
        typeParams := env.typeParams decl.file typeParams
        fields := (env.program.list decl.file fields).filterMap fun field =>
          match env.program.kind? field with
          | some (.fieldDecl name ty) => some ⟨name, (env.denote ty).1⟩
          | _ => none
        isEnum
        supertypes := [] }
  | _ => none

/-- The records of the structs in the modules of a file. -/
def declaredRecords (env : Env) (file : FileId) : List Record :=
  match env.program.tree? file with
  | some t => (t.modules.flatMap t.items).filterMap env.structRecord?
  | none => []

/-- The struct of the program that a name denotes. -/
def findStruct? (env : Env) (name : QName) : Option NodeId :=
  name.module.bind fun module =>
    env.program.findStruct? env.catalog.aliases name.address module name.name

/-- The type of a parameter, unknown without an annotation. -/
def paramType (env : Env) (param : NodeId) : Ty × List FileId :=
  match env.program.kind? param with
  | some (.param _ (some ty)) => env.denote ty
  | _ => (.unknown, [])

/-- The signature of a function. Without an annotation the result is unit. -/
def signature? (env : Env) (decl : NodeId) : Option (Callable × List FileId) :=
  match env.program.kind? decl with
  | some (.function _ typeParams params ret _) =>
    let params := (env.program.list decl.file params).map env.paramType
    let (result, files) := (ret.map env.denote).getD (.unit, [])
    some
      (⟨env.typeParams decl.file typeParams, params.map Prod.fst, result⟩,
        params.flatMap Prod.snd ++ files)
  | _ => none

end MoveTyping.Env
