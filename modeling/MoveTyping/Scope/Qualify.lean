import MoveTyping.Scope.Resolve

/-!
# Qualification

The full name of a reference to a module's item, whether the item is live or not, so that it can be
looked up in a library. Every module sees a few library names without importing them.
-/

namespace MoveTyping.Scope

/-- A library name that needs no import: a module, or a member of one. -/
structure PreludeEntry where
  address : String
  module : String
  member : Option String

def prelude : List PreludeEntry :=
  [⟨"0x1", "vector", none⟩, ⟨"0x1", "option", none⟩, ⟨"0x1", "option", some "Option"⟩,
   ⟨"0x2", "object", none⟩, ⟨"0x2", "object", some "UID"⟩, ⟨"0x2", "object", some "ID"⟩,
   ⟨"0x2", "transfer", none⟩, ⟨"0x2", "tx_context", none⟩,
   ⟨"0x2", "tx_context", some "TxContext"⟩]

/-- What the surrounding module says `module` is: itself, an import or its own name. -/
def moduleFrom? (s : Scope) (t : Tree) (enclosing : NodeId) (module : String) :
    Option (Option (String × String)) :=
  if module = "Self" then some (s.program.identity? enclosing)
  else match moduleImport? t enclosing module with
    | some i => some (some (i.address, i.module))
    | none =>
      ((s.program.identity? enclosing).filter (·.2 = module)).map some

/-- Address and name of the module that the module part of a path names. -/
def qualifyModule? (s : Scope) (t : Tree) (node : NodeId) (module : String) :
    Option (String × String) :=
  match (t.enclosingModule? node).bind fun enclosing => s.moduleFrom? t enclosing module with
  | some answer => answer
  | none =>
    match prelude.find? fun e => e.member.isNone && e.module = module with
    | some e => some (e.address, module)
    | none => (s.findModule? none module).bind s.program.identity?

/-- The full name of a simple name that an import or the prelude brings in. -/
def qualifySimple? (t : Tree) (node : NodeId) (name : String) : Option QName :=
  let imported := (t.enclosingModule? node).bind fun enclosing =>
    (imports t enclosing).findSome? fun i =>
      i.member.bind fun member =>
        if i.visible = name then some (.full i.address i.module member) else none
  imported.or <|
    (prelude.find? (·.member = some name)).map fun e => .full e.address e.module name

/-- The full name of a simple name, which is that of the declaration if it has one. -/
def qualify? (s : Scope) (t : Tree) (node : NodeId) (name : String) (space : Space) :
    Option QName :=
  match s.simple? t node name space with
  | some decl =>
    ((s.program.parent? decl).bind s.program.identity?).map fun (address, module) =>
      .full address module name
  | none => qualifySimple? t node name

/-- The full name of a path. -/
def qualifyPath? (s : Scope) (t : Tree) (node : NodeId) (path : QName) (space : Space) :
    Option QName :=
  match path.address, path.module with
  | some _, some _ => some path
  | none, some module =>
    (s.qualifyModule? t node module).map fun (address, module) => .full address module path.name
  | none, none => s.qualify? t node path.name space
  | some _, none => none

/-- The full name of a reference, with the address in normal form. Local names have none. -/
def canonicalPath? (s : Scope) (reference : NodeId) : Option QName := do
  let (path, space) ← s.reference? reference
  let t ← s.program.tree? reference.file
  let full ← s.qualifyPath? t reference path space
  return { full with address := full.address.map s.aliases.normalize }

end MoveTyping.Scope
