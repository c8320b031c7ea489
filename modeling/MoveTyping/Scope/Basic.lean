import MoveTyping.Program

/-!
# Names in scope

Which declarations a module offers and what its `use` declarations bring in.
-/

namespace MoveTyping

/-- Functions, constants, parameters and bindings are values; structs and type parameters are
types. -/
inductive Space where
  | value | type
deriving DecidableEq, Repr

/-- A `use` declaration. -/
structure Import where
  address : String
  module : String
  /-- The member brought in; `none` for the module itself. -/
  member : Option String
  /-- The name under which it is visible. -/
  visible : String
deriving DecidableEq, Repr

/-- The import of a `use` node. The member `Self` is the module itself. -/
def Import.ofKind? : NodeKind → Option Import
  | .use address module member asName =>
    let member := member.filter (· ≠ "Self")
    some ⟨address, module, member, (asName.or member).getD module⟩
  | _ => none

/-- Whether a module item of this kind declares `name` in a space. -/
def NodeKind.declares (name : String) (space : Space) : NodeKind → Bool
  | .function declared .. => space = .value && declared = name
  | .const declared .. => space = .value && declared = name
  | .struct declared .. => space = .type && declared = name
  | _ => false

/-- The live program and the names of its addresses. -/
structure Scope where
  program : Program
  aliases : Aliases

namespace Scope

def findModule? (s : Scope) (address : Option String) (module : String) : Option NodeId :=
  s.program.findModule? s.aliases address module

/-- The first item of a module that declares `name`. -/
def item? (s : Scope) (module : NodeId) (name : String) (space : Space) : Option NodeId :=
  (s.program.items module).find? fun item => (s.program.kind? item).any (·.declares name space)

/-- The imports of a module, in order. -/
def imports (t : Tree) (module : NodeId) : List Import :=
  (t.items module).filterMap fun item => (t.kind? item).bind Import.ofKind?

/-- The import of a module under `name`. -/
def moduleImport? (t : Tree) (module : NodeId) (name : String) : Option Import :=
  (imports t module).find? fun i => i.member.isNone && i.visible = name

/-- The path that a reference spells, and the space in which it is looked up. The path of a struct
literal names a type. -/
def reference? (s : Scope) (reference : NodeId) : Option (QName × Space) := do
  match ← s.program.kind? reference with
  | .path path _ =>
    let packed := (s.program.parent? reference).any fun parent =>
      match s.program.kind? parent with
      | some (.pack target _) => target = reference
      | _ => false
    return (path, if packed then .type else .value)
  | .typePath path _ => return (path, .type)
  | _ => none

end Scope

end MoveTyping
