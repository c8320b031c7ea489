import MoveTyping.Ty.Basic

/-!
# Unification and assignability

Unification compares two types once, with no occurs check and no solving: a type variable yields
to the other side, and only arguments of one generic type are looked into.

A value may be assigned where its own type is expected, where nothing is known about either side,
and through a reference that promises no more than its own.
-/

namespace MoveTyping

namespace Ty

def unify? (a b : Ty) : Option Ty :=
  if a = b then some a else
  match a, b with
  | var _ _, _ => some b
  | _, var _ _ => some a
  | generic base as, generic base' bs =>
    if base = base' then (unifyList? as bs).map (generic base) else none
  | _, _ => none
where
  /-- Element by element, for lists of one length. -/
  unifyList? : List Ty → List Ty → Option (List Ty)
    | [], [] => some []
    | a :: as, b :: bs => do
      let t ← unify? a b
      let ts ← unifyList? as bs
      return t :: ts
    | _, _ => none

/-- Unifies the elements from left to right; an empty list has no type. -/
def unifyAll? : List Ty → Option Ty
  | [] => none
  | t :: ts => ts.foldlM unify? t

/-- Whether a value of type `source` may stand where `target` is expected. -/
def assignable (source target : Ty) : Bool :=
  if source = target then true else
  match source, target with
  | unknown, _ => true
  | _, unknown => true
  | ref a m, ref b n => (m || !n) && assignable a b
  | _, _ => false

end Ty

end MoveTyping
