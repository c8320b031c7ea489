import MoveTyping.Operator
import MoveTyping.QName

/-!
# Syntax nodes

A node belongs to a file and is known by its place among the file's nodes. It refers to other nodes
by their ids, and to lists of nodes by slices of the file's table of links. References are not
checked: a node may refer to a node that does not exist or that belongs to another file.

Nodes carry syntax only. Ability keywords and literals are kept as they are written.
-/

namespace MoveTyping

/-- A file of the session. -/
abbrev FileId := Nat

def FileId.describe (file : FileId) : String := "FileId(" ++ toString file ++ ")"

structure NodeId where
  file : FileId
  index : Nat
deriving DecidableEq, Repr

def NodeId.describe (id : NodeId) : String :=
  "NodeId(" ++ toString id.file ++ ":" ++ toString id.index ++ ")"

/-- A half-open range of bytes in a file. -/
structure Span where
  start : Nat
  stop : Nat
deriving DecidableEq, Repr

namespace Span

/-- The span of a node that comes from no text. -/
def dummy : Span := ⟨0, 0⟩

def length (s : Span) : Nat := s.stop - s.start

def isEmpty (s : Span) : Bool := s.stop ≤ s.start

def describe (s : Span) : String := toString s.start ++ ".." ++ toString s.stop

end Span

/-- A run of a file's table of links. -/
structure Slice where
  start : Nat
  length : Nat
deriving DecidableEq, Repr

namespace Slice

def stop (s : Slice) : Nat := s.start + s.length

def isEmpty (s : Slice) : Bool := s.length = 0

/-- A slice is no longer than this; longer lists are cut. -/
def maxLength : Nat := 65535

end Slice

inductive NodeKind where
  | module (address name : String) (items : Slice)
  | use (address module : String) (member asName : Option String)
  | function (name : String) (typeParams params : Slice) (ret body : Option NodeId)
  | param (name : String) (ty : Option NodeId)
  | typeParam (name : String) (bounds : Slice) (phantom : Bool)
  | struct (name : String) (typeParams abilities fields : Slice) (isEnum : Bool)
  | fieldDecl (name : String) (ty : NodeId)
  | const (name : String) (ty value : Option NodeId)
  | ability (keyword : String)
  | letStmt (pattern : NodeId) (ty init : Option NodeId)
  | bindName (name : String)
  | bindTuple (elems : Slice)
  /-- An expression as a statement; `terminated` when a semicolon follows. -/
  | exprStmt (expr : NodeId) (terminated : Bool)
  | literal (text : String)
  /-- A name with explicit type arguments. -/
  | path (path : QName) (typeArgs : Slice)
  | call (callee : NodeId) (args : Slice)
  | binary (op : BinaryOp) (lhs rhs : NodeId)
  | unary (op : UnaryOp) (operand : NodeId)
  /-- A struct literal. -/
  | pack (target : NodeId) (fields : Slice)
  | fieldInit (name : String) (value : NodeId)
  | vector (elemTy : Option NodeId) (elems : Slice)
  | tuple (elems : Slice)
  | block (stmts : Slice)
  | ifElse (cond thenBranch : NodeId) (elseBranch : Option NodeId)
  | whileLoop (cond body : NodeId)
  | loop (body : NodeId)
  | returnExpr (value : Option NodeId)
  | abort (code : NodeId)
  | breakExpr
  | continueExpr
  | assign (target value : NodeId)
  | cast (expr ty : NodeId)
  | fieldAccess (base : NodeId) (field : String)
  | index (base position : NodeId)
  | typePath (path : QName) (args : Slice)
  | typeRef (mutable : Bool) (inner : NodeId)
  | typeTuple (elems : Slice)
  /-- What stands where nothing could be read. -/
  | error
deriving DecidableEq, Repr

namespace NodeKind

def isModule : NodeKind → Bool
  | module .. => true
  | _ => false

/-- Expressions, as opposed to items, statements, patterns and annotations. -/
def isExpr : NodeKind → Bool
  | literal .. | path .. | call .. | binary .. | unary .. | pack .. | vector .. | tuple ..
  | block .. | ifElse .. | whileLoop .. | loop .. | returnExpr .. | abort .. | breakExpr
  | continueExpr | assign .. | cast .. | fieldAccess .. | index .. => true
  | _ => false

/-- Type annotations. -/
def isType : NodeKind → Bool
  | typePath .. | typeRef .. | typeTuple .. => true
  | _ => false

/-- Expressions that never give a value. -/
def isDiverging : NodeKind → Bool
  | returnExpr .. | abort .. | breakExpr | continueExpr => true
  | _ => false

/-- The name that a declaration introduces. -/
def declaredName? : NodeKind → Option String
  | module _ name _ => some name
  | function name .. => some name
  | param name _ => some name
  | typeParam name .. => some name
  | struct name .. => some name
  | fieldDecl name _ => some name
  | const name .. => some name
  | bindName name => some name
  | _ => none

/-- The nodes a node refers to, in source order, where `list` reads a slice. -/
def children (list : Slice → List NodeId) : NodeKind → List NodeId
  | module _ _ items => list items
  | function _ typeParams params ret body =>
    list typeParams ++ list params ++ ret.toList ++ body.toList
  | param _ ty => ty.toList
  | typeParam _ bounds _ => list bounds
  | struct _ typeParams abilities fields _ => list typeParams ++ list abilities ++ list fields
  | fieldDecl _ ty => [ty]
  | const _ ty value => ty.toList ++ value.toList
  | letStmt pattern ty init => pattern :: ty.toList ++ init.toList
  | bindTuple elems | tuple elems | typeTuple elems => list elems
  | exprStmt expr _ => [expr]
  | path _ typeArgs => list typeArgs
  | call callee args => callee :: list args
  | binary _ lhs rhs => [lhs, rhs]
  | unary _ operand => [operand]
  | pack target fields => target :: list fields
  | fieldInit _ value => [value]
  | vector elemTy elems => elemTy.toList ++ list elems
  | block stmts => list stmts
  | ifElse cond thenBranch elseBranch => cond :: thenBranch :: elseBranch.toList
  | whileLoop cond body => [cond, body]
  | loop body => [body]
  | returnExpr value => value.toList
  | abort code => [code]
  | assign target value => [target, value]
  | cast expr ty => [expr, ty]
  | fieldAccess base _ => [base]
  | index base position => [base, position]
  | typePath _ args => list args
  | typeRef _ inner => [inner]
  | use .. | ability _ | bindName _ | literal _ | breakExpr | continueExpr | error => []

end NodeKind

structure Node where
  kind : NodeKind
  span : Span
deriving DecidableEq, Repr

end MoveTyping
