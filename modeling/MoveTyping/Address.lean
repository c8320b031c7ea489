import MoveTyping.Table

/-!
# Addresses

An account address is written as a hexadecimal literal (`0x1`, `0x0002`, `@0x2`) or through a named
alias (`std`). Addresses are compared by their normal form: aliases are expanded, a leading `@` is
dropped, and hexadecimal digits are lower case without leading zeros.

## Main definitions

* `Aliases` — the named addresses.
* `Aliases.normalize` — the normal form of an address.
* `Aliases.same` — whether two spellings denote one address.
-/

namespace MoveTyping

def isHexDigit (c : Char) : Bool :=
  c.isDigit || ('a' ≤ c && c ≤ 'f') || ('A' ≤ c && c ≤ 'F')

/-- The shortest lower-case digits of a hexadecimal number; zero keeps one digit. -/
def shortestDigits (digits : List Char) : List Char :=
  match digits.dropWhile (· = '0') with
  | [] => ['0']
  | ds => ds.map Char.toLower

/-- The normal form of a hexadecimal literal; `none` for any other text. -/
def canonicalHex? : List Char → Option (List Char)
  | '0' :: 'x' :: digits =>
    if !digits.isEmpty && digits.all isHexDigit then some ('0' :: 'x' :: shortestDigits digits)
    else none
  | _ => none

/-- The address without a leading `@`. -/
def bareAddress : List Char → List Char
  | '@' :: rest => rest
  | cs => cs

/-- The named addresses, by alias. -/
structure Aliases where
  table : Table String String

namespace Aliases

def empty : Aliases := ⟨∅⟩

def insert (a : Aliases) (name address : String) : Aliases := ⟨a.table.insert name address⟩

def get? (a : Aliases) (name : String) : Option String := a.table.get? name

/-- The aliases of the framework. -/
def standard : Aliases := (empty.insert "std" "0x1").insert "sui" "0x2"

instance : Inhabited Aliases := ⟨standard⟩

/-- The normal form of an address. An alias counts with and without a leading `@`, and its address
is taken as it was given. A text that is no hexadecimal literal only loses the `@`. -/
def normalize (a : Aliases) (address : String) : String :=
  match a.get? address with
  | some target => target
  | none =>
    let bare := bareAddress address.toList
    match a.get? (.ofList bare) with
    | some target => target
    | none => .ofList ((canonicalHex? bare).getD bare)

/-- Whether two spellings denote one address. -/
def same (a : Aliases) (x y : String) : Bool := x == y || a.normalize x == a.normalize y

end Aliases

end MoveTyping
