import MoveTyping.Scope.Basic

/-!
# Resolution

Which declaration a reference denotes. A simple name is looked up from the inside out: in the `let`
statements that stand before the reference in each enclosing block, the latest first, then among
the parameters of the function, and at last among the items and imports of the module, where the
search ends. A qualified name is looked up in the module that it names.
-/

namespace MoveTyping.Scope

/-- The binding of `name` in a pattern, the last one first. Patterns are nested no deeper than
there are nodes, which bounds the fuel. -/
def bindingWithin? (t : Tree) (name : String) : Nat → NodeId → Option NodeId
  | 0, _ => none
  | fuel + 1, pattern =>
    match t.kind? pattern with
    | some (.bindName bound) => if bound = name then some pattern else none
    | some (.bindTuple elems) => (t.list elems).reverse.findSome? (bindingWithin? t name fuel)
    | _ => none

def binding? (t : Tree) (name : String) (pattern : NodeId) : Option NodeId :=
  bindingWithin? t name (t.size + 1) pattern

/-- The latest binding of `name` by a `let` among `stmts` in front of `child`. -/
def blockBinding? (t : Tree) (stmts : List NodeId) (child : NodeId) (name : String) :
    Option NodeId :=
  (stmts.takeWhile (· ≠ child)).reverse.findSome? fun stmt =>
    match t.kind? stmt with
    | some (.letStmt pattern _ _) => binding? t name pattern
    | _ => none

/-- The first of `decls` that declares `name`. -/
def declared? (t : Tree) (decls : List NodeId) (name : String) : Option NodeId :=
  decls.find? fun decl => (t.kind? decl).bind NodeKind.declaredName? = some name

/-- What a member import of the module brings in as `name`. -/
def imported? (s : Scope) (t : Tree) (module : NodeId) (name : String) (space : Space) :
    Option NodeId :=
  ((imports t module).filter (·.visible = name)).findSome? fun i => do
    let member ← i.member
    let target ← s.findModule? (some i.address) i.module
    s.item? target member space

/-- What a scope around the reference declares as `name`, where `child` is the part of the scope
that holds the reference. Modules are not among these scopes. -/
def local? (t : Tree) (scope : NodeKind) (child : NodeId) (name : String) (space : Space) :
    Option NodeId :=
  match scope, space with
  | .block stmts, .value => blockBinding? t (t.list stmts) child name
  | .function _ _ params _ _, .value => declared? t (t.list params) name
  | .function _ typeParams _ _ _, .type => declared? t (t.list typeParams) name
  | .struct _ typeParams _ _ _, .type => declared? t (t.list typeParams) name
  | _, _ => none

/-- Looks `name` up in `scopes`, nearest first; the first module ends the search. -/
def lookUp? (s : Scope) (t : Tree) (name : String) (space : Space) (child : NodeId) :
    List NodeId → Option NodeId
  | [] => none
  | scope :: outer =>
    match t.kind? scope with
    | none => none
    | some kind =>
      if kind.isModule then (s.item? scope name space).or (s.imported? t scope name space)
      else match local? t kind child name space with
        | some decl => some decl
        | none => s.lookUp? t name space scope outer

/-- The declaration of a simple name seen from `node`. -/
def simple? (s : Scope) (t : Tree) (node : NodeId) (name : String) (space : Space) :
    Option NodeId :=
  s.lookUp? t name space node (t.ancestors node)

/-- The module that the module part of a path names, seen from `node`. -/
def targetModule? (s : Scope) (t : Tree) (node : NodeId) (address : Option String)
    (module : String) : Option NodeId :=
  if address.isSome then s.findModule? address module
  else do
    let enclosing ← t.enclosingModule? node
    if module = "Self" then return enclosing
    match moduleImport? t enclosing module with
    | some i => s.findModule? (some i.address) i.module
    | none =>
      if (s.program.identity? enclosing).any (·.2 = module) then return enclosing
      else s.findModule? none module

/-- The declaration of a path seen from `node`. -/
def resolvePath? (s : Scope) (node : NodeId) (path : QName) (space : Space) : Option NodeId := do
  let t ← s.program.tree? node.file
  match path.address, path.module with
  | none, none => s.simple? t node path.name space
  | address, some module => s.item? (← s.targetModule? t node address module) path.name space
  | some _, none => none

/-- The declaration that a reference denotes. -/
def resolve? (s : Scope) (reference : NodeId) : Option NodeId := do
  let (path, space) ← s.reference? reference
  s.resolvePath? reference path space

end MoveTyping.Scope
