import MoveTyping.Catalog.Basic
import MoveTyping.Text.LowerCase

/-!
# Searching a catalog

Finds the modules, structs and functions whose name contains a text, ignoring case.
-/

namespace MoveTyping.Catalog

inductive HitKind where
  | module | struct | function
deriving DecidableEq, Repr

/-- A match: the path of what was found, and what it is. -/
structure Hit where
  path : String
  kind : HitKind
deriving DecidableEq, Repr

/-- Whether `needle` occurs in the text. -/
def occurs (needle : List Char) : List Char → Bool
  | [] => needle.isEmpty
  | c :: cs => needle.isPrefixOf (c :: cs) || occurs needle cs

/-- By path, in the order of code points, and for one path modules first, then structs. -/
def Hit.le (a b : Hit) : Bool :=
  a.path < b.path || (a.path == b.path && rank a.kind ≤ rank b.kind)
where
  rank : HitKind → Nat
    | .module => 0
    | .struct => 1
    | .function => 2

def Module.hits (m : Module) (found : String → Bool) : List Hit :=
  let path := m.address ++ "::" ++ m.name
  let member (kind : HitKind) (name : String) : Option Hit :=
    if found name then some ⟨path ++ "::" ++ name, kind⟩ else none
  (if found m.name then [⟨path, .module⟩] else []) ++
    m.structs.filterMap (fun s => member .struct s.name.name) ++
    m.functions.filterMap (fun f => member .function f.name.name)

/-- What the catalog has under a name that contains `text`, in order. -/
def search (c : Catalog) (text : String) : List Hit :=
  let needle := Text.lower text.toList
  let found (name : String) : Bool := occurs needle (Text.lower name.toList)
  (c.modules.flatMap (·.hits found)).mergeSort Hit.le

end MoveTyping.Catalog
