import MoveTyping.Tree.Basic

/-!
# Building trees

Trees are built bottom up: a node is added after the nodes it refers to, and every operation gives
the id of the node it adds last. Operations for declarations with parts add the parts first.
-/

namespace MoveTyping

/-- A step of building the tree of one file. -/
abbrev Build := StateM Arena

namespace Build

/-- The tree that `build` makes for `file`. -/
def tree {α : Type} (file : FileId) (build : Build α) : Tree :=
  (build.run ⟨file, #[], #[]⟩).2.finish

/-- Adds a node. -/
def add (kind : NodeKind) (span : Span) : Build NodeId :=
  modifyGet fun a => (⟨a.file, a.nodes.size⟩, { a with nodes := a.nodes.push ⟨kind, span⟩ })

def node (kind : NodeKind) : Build NodeId := add kind .dummy

/-- Stores a list of nodes. What is past the longest slice is cut off. -/
def slice (ids : List NodeId) : Build Slice :=
  let kept := ids.take Slice.maxLength
  modifyGet fun a => (⟨a.links.size, kept.length⟩, { a with links := a.links ++ kept })

/-! ## Items -/

def module (address name : String) (items : List NodeId) : Build NodeId := do
  node (.module address name (← slice items))

def function (name : String) (typeParams params : List NodeId) (ret body : Option NodeId) :
    Build NodeId := do
  let typeParams ← slice typeParams
  let params ← slice params
  node (.function name typeParams params ret body)

def abilities (keywords : List String) : Build Slice := do
  slice (← keywords.mapM fun keyword => node (.ability keyword))

def typeParam (name : String) (bounds : List String) (phantom : Bool) : Build NodeId := do
  node (.typeParam name (← abilities bounds) phantom)

def struct (name : String) (typeParams : List NodeId) (keywords : List String)
    (fields : List (String × NodeId)) : Build NodeId := do
  let typeParams ← slice typeParams
  let keywords ← abilities keywords
  let fields ← slice (← fields.mapM fun f => node (.fieldDecl f.1 f.2))
  node (.struct name typeParams keywords fields false)

/-! ## Statements -/

def letName (name : String) (ty init : Option NodeId) : Build NodeId := do
  let pattern ← node (.bindName name)
  node (.letStmt pattern ty init)

def letTuple (names : List String) (ty init : Option NodeId) : Build NodeId := do
  let elems ← slice (← names.mapM fun name => node (.bindName name))
  let pattern ← node (.bindTuple elems)
  node (.letStmt pattern ty init)

/-! ## Expressions and annotations -/

def path (path : QName) (typeArgs : List NodeId) : Build NodeId := do
  node (.path path (← slice typeArgs))

def call (callee : NodeId) (args : List NodeId) : Build NodeId := do
  node (.call callee (← slice args))

def pack (name : String) (fields : List (String × NodeId)) : Build NodeId := do
  let target ← path (.simple name) []
  let fields ← slice (← fields.mapM fun f => node (.fieldInit f.1 f.2))
  node (.pack target fields)

def vector (elemTy : Option NodeId) (elems : List NodeId) : Build NodeId := do
  node (.vector elemTy (← slice elems))

def tuple (elems : List NodeId) : Build NodeId := do
  node (.tuple (← slice elems))

def block (stmts : List NodeId) : Build NodeId := do
  node (.block (← slice stmts))

def typePath (path : QName) (args : List NodeId) : Build NodeId := do
  node (.typePath path (← slice args))

def typeTuple (elems : List NodeId) : Build NodeId := do
  node (.typeTuple (← slice elems))

end Build

end MoveTyping
