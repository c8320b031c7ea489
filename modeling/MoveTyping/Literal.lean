import MoveTyping.Address
import MoveTyping.Ty.Basic

/-!
# Literals

A literal is kept as it is written, and its type follows from its lexical form. Digits may contain
underscores after the first; what follows them is the suffix.
-/

namespace MoveTyping.Literal

/-- Splits a text into a run of digits and the rest. The run is not empty, and underscores are
allowed after its first digit. -/
def splitDigits? (isDigit : Char → Bool) : List Char → Option (List Char × List Char)
  | [] => none
  | c :: cs =>
    if isDigit c then some ((c :: cs).span fun d => isDigit d || d = '_') else none

/-- The type of a number whose digits are followed by `suffix`, where `plain` is the type of a
number without one. -/
def suffixed (plain : Ty) (suffix : List Char) : Ty :=
  if suffix.isEmpty then plain else ((Prim.ofSuffix? (.ofList suffix)).map Ty.prim).getD .unknown

/-- The text after `0x` or `0X`. -/
def hexBody? : List Char → Option (List Char)
  | '0' :: 'x' :: cs => some cs
  | '0' :: 'X' :: cs => some cs
  | _ => none

/-- The type of a number: an address for bare hexadecimal digits, `u64` for bare decimal ones, and
otherwise the integer type of the suffix. -/
def numberType (cs : List Char) : Ty :=
  match hexBody? cs with
  | some hex => typeOfSplit (.prim .address) (splitDigits? isHexDigit hex)
  | none => typeOfSplit (.prim .u64) (splitDigits? Char.isDigit cs)
where
  typeOfSplit (plain : Ty) : Option (List Char × List Char) → Ty
    | some (_, suffix) => suffixed plain suffix
    | none => .unknown

/-- The type of a literal from its text. -/
def type (text : String) : Ty :=
  if text = "true" ∨ text = "false" then .prim .bool
  else match text.toList with
    | '@' :: _ => .prim .address
    | 'b' :: '"' :: _ => .vector (.prim .u8)
    | 'x' :: '"' :: _ => .vector (.prim .u8)
    | '"' :: _ => .prim .string
    | cs => numberType cs

/-- A decimal integer without a suffix. It takes the integer type of what stands around it. -/
def isUnsuffixed (text : String) : Bool :=
  (hexBody? text.toList).isNone &&
    (splitDigits? Char.isDigit text.toList).any fun r => r.2.isEmpty

end MoveTyping.Literal
