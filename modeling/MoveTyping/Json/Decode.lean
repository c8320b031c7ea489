import MoveTyping.Json.Basic

/-!
# Reading records from JSON

A record is written as an object with its field names or as an array of its fields in declaration
order. Unknown and repeated names are refused. A missing field takes its default if it has one.

Every failure is one and the same: the text does not describe the record.
-/

namespace MoveTyping.Json

/-- The fields of a record, by name. A `none` stands for a field that is not written. -/
structure Fields where
  values : List (String × Option Json)

/-- The members of a record with these field names. -/
def fields? (names : List String) : Json → Option Fields
  | object members =>
    if members.all (fun m => names.contains m.1) && (members.map Prod.fst).Nodup then
      some ⟨names.map fun name => (name, members.lookup name)⟩
    else none
  | array items =>
    if items.length ≤ names.length then
      some ⟨(List.range names.length).zipWith (fun i name => (name, items[i]?)) names⟩
    else none
  | _ => none

namespace Fields

def get? (f : Fields) (name : String) : Option Json := (f.values.lookup name).join

/-- A field that has to be written. -/
def required {α : Type} (f : Fields) (name : String) (decode : Json → Option α) : Option α :=
  f.get? name >>= decode

/-- A field with a default. -/
def optional {α : Type} (f : Fields) (name : String) (default : α) (decode : Json → Option α) :
    Option α :=
  match f.get? name with
  | some value => decode value
  | none => some default

end Fields

def toString? : Json → Option String
  | string s => some s
  | _ => none

def toBool? : Json → Option Bool
  | bool b => some b
  | _ => none

/-- A natural number below `bound`. -/
def toNat? (bound : Nat) : Json → Option Nat
  | natural n => if n < bound then some n else none
  | _ => none

/-- A value, or `null` for none. -/
def toOption? {α : Type} (decode : Json → Option α) : Json → Option (Option α)
  | null => some none
  | value => (decode value).map some

def toList? {α : Type} (decode : Json → Option α) : Json → Option (List α)
  | array items => items.mapM decode
  | _ => none

/-- The pairs of an object used as a map. -/
def toPairs? {α : Type} (decode : Json → Option α) : Json → Option (List (String × α))
  | object members => members.mapM fun m => (decode m.2).map (m.1, ·)
  | _ => none

end MoveTyping.Json
