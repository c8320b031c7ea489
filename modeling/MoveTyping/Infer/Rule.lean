import MoveTyping.Ty.Abilities
import MoveTyping.Tree.Node

/-!
# Rules of inference

A rule says how the type of a node is derived, as a program that may ask for the types of other
nodes and for the records of structs, and that tells which files it reads. What asking means is left
open: an interpreter may keep the answers, cut the questions off, or count them.

## Main definitions

* `Rule` — the programs.
-/

namespace MoveTyping

inductive Rule (α : Type) where
  | done (value : α)
  /-- Asks for the type of a node; some nodes have none. -/
  | ask (node : NodeId) (next : Option Ty → Rule α)
  /-- Asks for the record of a struct. -/
  | askRecord (name : QName) (next : Option Record → Rule α)
  /-- Tells that a file is read. -/
  | read (file : FileId) (next : Rule α)

namespace Rule

variable {α β γ : Type}

def bind : Rule α → (α → Rule β) → Rule β
  | done a, f => f a
  | ask node next, f => ask node fun t => (next t).bind f
  | askRecord name next, f => askRecord name fun r => (next r).bind f
  | read file next, f => read file (next.bind f)

instance : Monad Rule where
  pure := done
  bind := bind

theorem bind_done (r : Rule α) : r.bind done = r := by
  induction r with
  | done a => rfl
  | ask node next ih => simp [bind, ih]
  | askRecord name next ih => simp [bind, ih]
  | read file next ih => simp [bind, ih]

theorem bind_assoc (r : Rule α) (f : α → Rule β) (g : β → Rule γ) :
    (r.bind f).bind g = r.bind fun a => (f a).bind g := by
  induction r with
  | done a => rfl
  | ask node next ih => simp [bind, ih]
  | askRecord name next ih => simp [bind, ih]
  | read file next ih => simp [bind, ih]

instance : LawfulMonad Rule := .mk' Rule
  (fun r => bind_done r)
  (fun _ _ => rfl)
  (fun r f g => bind_assoc r f g)

/-! ## Questions -/

/-- The type of a node. -/
def typeOf? (node : NodeId) : Rule (Option Ty) := ask node done

/-- The type of a node, unknown if it has none. -/
def typeOf (node : NodeId) : Rule Ty := ask node fun t => done (t.getD .unknown)

def typesOf (nodes : List NodeId) : Rule (List Ty) := nodes.mapM typeOf

def record? (name : QName) : Rule (Option Record) := askRecord name done

/-- A value that was derived from some files. -/
def reading (derived : α × List FileId) : Rule α := derived.2.foldr read (done derived.1)

def abilities (t : Ty) : Rule AbilitySet := t.abilitiesM record?

/-- Whether a type has an ability. -/
def hasAbility (t : Ty) (a : Ability) : Rule Bool := return (← abilities t).has a

/-- Whether a type has all of some abilities. -/
def hasAbilities (t : Ty) (required : AbilitySet) : Rule Bool :=
  return (← abilities t).covers required

end Rule

end MoveTyping
