/-!
# Abilities

An ability says what may be done with a value: duplicate it (`copy`), discard it (`drop`), keep it
inside stored values (`store`), or store it at top level (`key`). A type carries a set of them.
-/

namespace MoveTyping

inductive Ability where
  | copy | drop | store | key
deriving DecidableEq, Repr

namespace Ability

/-- All abilities, in the order in which sets are listed. -/
def all : List Ability := [copy, drop, store, key]

def keyword : Ability → String
  | copy => "copy"
  | drop => "drop"
  | store => "store"
  | key => "key"

def ofKeyword? (text : String) : Option Ability := all.find? (·.keyword == text)

/-- The ability every type argument must have for a generic struct to keep this one. A struct
stored at top level stores its arguments. -/
def ofArguments : Ability → Ability
  | key => store
  | a => a

end Ability

/-- A set of abilities, one flag for each. -/
@[ext] structure AbilitySet where
  copy : Bool
  drop : Bool
  store : Bool
  key : Bool
deriving DecidableEq, Repr

namespace AbilitySet

def has (s : AbilitySet) : Ability → Bool
  | .copy => s.copy
  | .drop => s.drop
  | .store => s.store
  | .key => s.key

/-- The abilities that satisfy `p`. -/
def ofPred (p : Ability → Bool) : AbilitySet := ⟨p .copy, p .drop, p .store, p .key⟩

@[simp] theorem has_ofPred (p : Ability → Bool) (a : Ability) : (ofPred p).has a = p a := by
  cases a <;> rfl

theorem ext_has {s t : AbilitySet} (h : ∀ a, s.has a = t.has a) : s = t :=
  AbilitySet.ext (h .copy) (h .drop) (h .store) (h .key)

instance : EmptyCollection AbilitySet := ⟨ofPred fun _ => false⟩
instance : Inhabited AbilitySet := ⟨∅⟩
instance : Inter AbilitySet := ⟨fun s t => ofPred fun a => s.has a && t.has a⟩
instance : Union AbilitySet := ⟨fun s t => ofPred fun a => s.has a || t.has a⟩
instance : SDiff AbilitySet := ⟨fun s t => ofPred fun a => s.has a && !t.has a⟩
instance : HasSubset AbilitySet := ⟨fun s t => ∀ a, s.has a = true → t.has a = true⟩

def all : AbilitySet := ofPred fun _ => true

/-- What every primitive but `signer` has. -/
def primitive : AbilitySet := ⟨true, true, true, false⟩

/-- What every reference has. -/
def reference : AbilitySet := ⟨true, true, false, false⟩

def filter (p : Ability → Bool) (s : AbilitySet) : AbilitySet := ofPred fun a => s.has a && p a

def isEmpty (s : AbilitySet) : Bool := s == ∅

/-- Whether the set has every ability of `required`. -/
def covers (s required : AbilitySet) : Bool := Ability.all.all fun a => !required.has a || s.has a

def toList (s : AbilitySet) : List Ability := Ability.all.filter s.has

def ofList (abilities : List Ability) : AbilitySet := ofPred fun a => abilities.contains a

/-- The abilities among `keywords`; other words are skipped. -/
def ofKeywords (keywords : List String) : AbilitySet :=
  ofList (keywords.filterMap Ability.ofKeyword?)

/-- The set as a number, one bit for each ability. -/
def bits (s : AbilitySet) : Nat :=
  s.copy.toNat + 2 * s.drop.toNat + 4 * s.store.toNat + 8 * s.key.toNat

/-- The keywords in their fixed order, joined by plus signs. -/
def render (s : AbilitySet) : String := " + ".intercalate (s.toList.map Ability.keyword)

@[simp] theorem has_empty (a : Ability) : (∅ : AbilitySet).has a = false := has_ofPred _ a

@[simp] theorem has_all (a : Ability) : all.has a = true := has_ofPred _ a

@[simp] theorem has_inter (s t : AbilitySet) (a : Ability) :
    (s ∩ t).has a = (s.has a && t.has a) := has_ofPred _ a

@[simp] theorem has_union (s t : AbilitySet) (a : Ability) :
    (s ∪ t).has a = (s.has a || t.has a) := has_ofPred _ a

@[simp] theorem has_sdiff (s t : AbilitySet) (a : Ability) :
    (s \ t).has a = (s.has a && !t.has a) := has_ofPred _ a

@[simp] theorem has_filter (p : Ability → Bool) (s : AbilitySet) (a : Ability) :
    (s.filter p).has a = (s.has a && p a) := has_ofPred _ a

theorem covers_iff {s required : AbilitySet} : s.covers required = true ↔ required ⊆ s := by
  constructor
  · intro h a ha
    simp only [covers, Ability.all, List.all_cons, List.all_nil] at h
    cases a <;> simp_all
  · intro h
    simp only [covers, List.all_eq_true]
    intro a _
    cases ha : required.has a with
    | false => rfl
    | true => simp [h a ha]

end AbilitySet

end MoveTyping
