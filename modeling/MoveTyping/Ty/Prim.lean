import MoveTyping.Ability

/-!
# Primitive types

`unit` is the empty tuple. `string` stands for the library's string struct, which the language
treats as built in but does not spell with a keyword.
-/

namespace MoveTyping

inductive Prim where
  | bool | u8 | u16 | u32 | u64 | u128 | u256 | address | signer | unit | string
deriving DecidableEq, Repr

namespace Prim

def render : Prim → String
  | bool => "bool"
  | u8 => "u8"
  | u16 => "u16"
  | u32 => "u32"
  | u64 => "u64"
  | u128 => "u128"
  | u256 => "u256"
  | address => "address"
  | signer => "signer"
  | unit => "()"
  | string => "String"

def integers : List Prim := [u8, u16, u32, u64, u128, u256]

/-- The primitives that a type keyword names. -/
def keywords : List Prim := bool :: integers ++ [address, signer]

def all : List Prim := keywords ++ [unit, string]

def isInteger (p : Prim) : Bool := integers.contains p

def ofKeyword? (text : String) : Option Prim := keywords.find? (·.render == text)

/-- The integer type that a literal's suffix names. -/
def ofSuffix? (text : String) : Option Prim := integers.find? (·.render == text)

def abilities : Prim → AbilitySet
  | signer => ⟨false, true, false, false⟩
  | _ => .primitive

end Prim

end MoveTyping
