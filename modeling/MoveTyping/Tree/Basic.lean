import MoveTyping.Tree.Node

/-!
# Syntax trees

The nodes of a file, with the links from each node to the one above it. A node counts as a child by
its place alone, and of several nodes that refer to one place the last is its parent. The links are
computed once from the nodes; the type of trees says that they are the computed ones.

## Main definitions

* `Arena` — the nodes and links of a file, as they are built.
* `Tree`, `Arena.finish` — the nodes with their parents and roots.
* `Tree.ancestors`, `Tree.enclosingModule?` — what is above a node.
-/

namespace MoveTyping

structure Arena where
  file : FileId
  nodes : Array Node
  /-- What slices are slices of. -/
  links : Array NodeId

namespace Arena

def size (a : Arena) : Nat := a.nodes.size

/-- The nodes of a slice. A slice that leaves the table is empty. -/
def list (a : Arena) (s : Slice) : List NodeId :=
  if s.stop ≤ a.links.size then (a.links.extract s.start s.stop).toList else []

def node? (a : Arena) (id : NodeId) : Option Node :=
  if id.file = a.file then a.nodes[id.index]? else none

def kind? (a : Arena) (id : NodeId) : Option NodeKind := (a.node? id).map Node.kind

def contains (a : Arena) (id : NodeId) : Bool := (a.node? id).isSome

/-- The ids of all nodes, in order. -/
def ids (a : Arena) : List NodeId := (List.range a.size).map (NodeId.mk a.file)

/-- The nodes a node refers to, in source order. -/
def children (a : Arena) (id : NodeId) : List NodeId :=
  ((a.kind? id).map (·.children a.list)).getD []

/-- Makes `parent` the parent of every place that `parent` refers to. -/
def adopt (a : Arena) (parents : Array (Option NodeId)) (parent : NodeId) :
    Array (Option NodeId) :=
  (a.children parent).foldl (fun ps c => ps.setIfInBounds c.index (some parent)) parents

/-- The parent of each place; later nodes take children over from earlier ones. -/
def parentTable (a : Arena) : Array (Option NodeId) :=
  a.ids.foldl a.adopt (Array.replicate a.size none)

/-- The nodes without a parent, in order. -/
def rootList (a : Arena) (parents : Array (Option NodeId)) : List NodeId :=
  a.ids.filter fun id => parents[id.index]?.join.isNone

end Arena

structure Tree extends Arena where
  parents : Array (Option NodeId)
  roots : List NodeId
  parents_eq : parents = toArena.parentTable
  roots_eq : roots = toArena.rootList parents

/-- The tree of these nodes. -/
def Arena.finish (a : Arena) : Tree := ⟨a, a.parentTable, a.rootList a.parentTable, rfl, rfl⟩

namespace Tree

def parent? (t : Tree) (id : NodeId) : Option NodeId :=
  if id.file = t.file then t.parents[id.index]?.join else none

/-- Up to `fuel` nodes above `id`, nearest first. -/
def ancestorsWithin (t : Tree) : Nat → NodeId → List NodeId
  | 0, _ => []
  | fuel + 1, id =>
    match t.parent? id with
    | some p => p :: t.ancestorsWithin fuel p
    | none => []

/-- The nodes above `id`, nearest first. There are no more of them than nodes. -/
def ancestors (t : Tree) (id : NodeId) : List NodeId := t.ancestorsWithin t.size id

def isModule (t : Tree) (id : NodeId) : Bool := (t.kind? id).any NodeKind.isModule

/-- The innermost module around `id`, which may be `id` itself. -/
def enclosingModule? (t : Tree) (id : NodeId) : Option NodeId :=
  (id :: t.ancestors id).find? t.isModule

/-- The modules at the top of the file. -/
def modules (t : Tree) : List NodeId := t.roots.filter t.isModule

/-- The items of a module. -/
def items (t : Tree) (module : NodeId) : List NodeId :=
  match t.kind? module with
  | some (.module _ _ items) => t.list items
  | _ => []

/-- Address, module and name of each named item of each module. -/
def itemNames (t : Tree) : List (String × String × String) :=
  t.modules.flatMap fun m =>
    match t.kind? m with
    | some (.module address name items) =>
      (t.list items).filterMap fun item =>
        ((t.kind? item).bind NodeKind.declaredName?).map fun declared => (address, name, declared)
    | _ => []

/-- Whether two trees have the same items, in any order. -/
def sameItems (t u : Tree) : Bool := t.itemNames.isPerm u.itemNames

end Tree

end MoveTyping
