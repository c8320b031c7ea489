import MoveTyping.Record

/-!
# Abilities of types

The abilities of a type follow from its parts and from the records of the structs it names. A
record may come from a pure table or from a look-up with effects, so the derivation is written once
for any monad; `Ty.abilities` is the pure reading.

A struct keeps an ability only if each argument at a parameter that is not phantom has the ability
asked of arguments. Arguments at phantom parameters are not looked at.
-/

namespace MoveTyping

namespace Ty

/-- The abilities of a type, asking `record` for each struct named, from left to right. -/
def abilitiesM {m : Type → Type} [Monad m] (record : QName → m (Option Record)) :
    Ty → m AbilitySet
  | prim kind => pure kind.abilities
  | ref _ _ => pure .reference
  | tuple elems => common elems
  | named name => do
    let info ← record name
    return info.elim ∅ Record.abilities
  | generic base args =>
    if base = .vector then do
      let elems ← common args
      return .primitive ∩ elems
    else do
      match ← record base with
      | none => return ∅
      | some info =>
        let sets ← ofArgs info 0 args
        return info.abilities.filter fun a => sets.all (·.has a.ofArguments)
  | var _ bounds => pure bounds
  | func _ _ => pure ∅
  | unknown => pure .all
where
  /-- What all of the types have. -/
  common : List Ty → m AbilitySet
    | [] => pure .all
    | t :: ts => do
      let s ← abilitiesM record t
      let rest ← common ts
      return s ∩ rest
  /-- The sets of the arguments from position `index` on, phantom ones left out. -/
  ofArgs (info : Record) (index : Nat) : List Ty → m (List AbilitySet)
    | [] => pure []
    | t :: ts =>
      if info.isPhantom index then ofArgs info (index + 1) ts
      else do
        let s ← abilitiesM record t
        let rest ← ofArgs info (index + 1) ts
        return s :: rest

/-- The abilities of a type over a fixed set of records. -/
def abilities (record : QName → Option Record) (t : Ty) : AbilitySet :=
  Id.run (t.abilitiesM fun name => pure (record name))

end Ty

end MoveTyping
