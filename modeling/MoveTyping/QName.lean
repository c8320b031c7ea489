/-!
# Qualified names

`address::module::name`, where the address and the module may be missing: a path as it is written
in a program, or the identity of a type, function or constant.
-/

namespace MoveTyping

structure QName where
  address : Option String
  module : Option String
  name : String
deriving DecidableEq, Repr

namespace QName

def simple (name : String) : QName := ⟨none, none, name⟩

def inModule (module name : String) : QName := ⟨none, some module, name⟩

def full (address module name : String) : QName := ⟨some address, some module, name⟩

/-- The built-in `vector`. -/
def vector : QName := simple "vector"

/-- `0x1::string::String`, which the language treats as built in. -/
def stdString : QName := full "0x1" "string" "String"

def isSimple (q : QName) : Bool := q.address.isNone && q.module.isNone

def render (q : QName) : String :=
  segment q.address ++ segment q.module ++ q.name
where
  segment : Option String → String
    | some s => s ++ "::"
    | none => ""

end QName

end MoveTyping
