import MoveTyping.QName
import MoveTyping.Ty.Prim

/-!
# Types

Types are plain trees compared structurally. The constructors build any tree; `Ty.ofName`,
`Ty.ofElems` and `Ty.vector` build the canonical one: the empty tuple is the primitive unit, a
one-element tuple is its element, and the library's string struct is the primitive string.

## Main definitions

* `Ty.stripRefs`, `Ty.nominal?`, `Ty.element?` — what is behind the references.
* `Ty.hasVars`, `Ty.hasUnknown` — what occurs anywhere inside.
* `Ty.render` — the text of a type.
-/

namespace MoveTyping

inductive Ty where
  | prim (kind : Prim)
  /-- A struct or enum without type arguments. -/
  | named (name : QName)
  | generic (base : QName) (args : List Ty)
  | ref (inner : Ty) (mutable : Bool)
  | tuple (elems : List Ty)
  /-- A type parameter with its declared bounds. -/
  | var (name : String) (bounds : AbilitySet)
  | func (params : List Ty) (ret : Ty)
  /-- No answer. -/
  | unknown
deriving Repr

namespace Ty

instance : Inhabited Ty := ⟨unknown⟩

/-! ## Equality -/

def beq : Ty → Ty → Bool
  | prim a, prim b => a == b
  | named a, named b => a == b
  | generic a as, generic b bs => a == b && beqList as bs
  | ref a m, ref b n => m == n && beq a b
  | tuple as, tuple bs => beqList as bs
  | var a s, var b t => a == b && s == t
  | func ps r, func qs q => beqList ps qs && beq r q
  | unknown, unknown => true
  | _, _ => false
where
  beqList : List Ty → List Ty → Bool
    | [], [] => true
    | a :: as, b :: bs => beq a b && beqList as bs
    | _, _ => false

mutual

theorem eq_of_beq : ∀ {a b : Ty}, beq a b = true → a = b
  | prim _, b, h => by cases b <;> simp_all [beq]
  | named _, b, h => by cases b <;> simp_all [beq]
  | generic _ _, b, h => by
    cases b <;> simp_all [beq]
    exact eq_of_beqList h.2
  | ref _ _, b, h => by
    cases b <;> simp_all [beq]
    exact eq_of_beq h.2
  | tuple _, b, h => by
    cases b <;> simp_all [beq]
    exact eq_of_beqList h
  | var _ _, b, h => by cases b <;> simp_all [beq]
  | func _ _, b, h => by
    cases b <;> simp_all [beq]
    exact ⟨eq_of_beqList h.1, eq_of_beq h.2⟩
  | unknown, b, h => by cases b <;> simp_all [beq]

theorem eq_of_beqList : ∀ {as bs : List Ty}, beq.beqList as bs = true → as = bs
  | [], [], _ => rfl
  | a :: as, b :: bs, h => by
    simp only [beq.beqList, Bool.and_eq_true] at h
    rw [eq_of_beq h.1, eq_of_beqList h.2]
  | [], _ :: _, h => by simp [beq.beqList] at h
  | _ :: _, [], h => by simp [beq.beqList] at h

end

mutual

theorem beq_refl : ∀ a : Ty, beq a a = true
  | prim _ => by simp [beq]
  | named _ => by simp [beq]
  | generic _ as => by simp [beq, beqList_refl as]
  | ref a _ => by simp [beq, beq_refl a]
  | tuple as => by simp [beq, beqList_refl as]
  | var _ _ => by simp [beq]
  | func ps r => by simp [beq, beqList_refl ps, beq_refl r]
  | unknown => by simp [beq]

theorem beqList_refl : ∀ as : List Ty, beq.beqList as as = true
  | [] => rfl
  | a :: as => by simp [beq.beqList, beq_refl a, beqList_refl as]

end

instance : DecidableEq Ty := fun a b =>
  if h : beq a b = true then .isTrue (eq_of_beq h)
  else .isFalse fun e => h (e ▸ beq_refl a)

/-! ## Canonical constructors -/

def unit : Ty := prim .unit

def vector (elem : Ty) : Ty := generic .vector [elem]

/-- The nominal type `base` with these arguments. -/
def ofName (base : QName) (args : List Ty) : Ty :=
  if args.isEmpty then
    if base = .stdString then prim .string else named base
  else generic base args

/-- The tuple of these elements. -/
def ofElems : List Ty → Ty
  | [] => unit
  | [t] => t
  | elems => tuple elems

/-! ## Projections -/

def prim? : Ty → Option Prim
  | prim kind => some kind
  | _ => none

def isUnknown : Ty → Bool
  | unknown => true
  | _ => false

def isInteger (t : Ty) : Bool := t.prim?.any Prim.isInteger

/-- The type behind any number of references. -/
def stripRefs : Ty → Ty
  | ref inner _ => inner.stripRefs
  | t => t

/-- The element type of a vector, looking through references. -/
def element? (t : Ty) : Option Ty :=
  match t.stripRefs with
  | generic base args => if base = .vector then args.head? else none
  | _ => none

/-- The name and arguments of a nominal type, looking through references. -/
def nominal? (t : Ty) : Option (QName × List Ty) :=
  match t.stripRefs with
  | named name => some (name, [])
  | generic base args => some (base, args)
  | _ => none

/-- Whether a type variable occurs anywhere. -/
def hasVars : Ty → Bool
  | var _ _ => true
  | generic _ args => anyVars args
  | tuple elems => anyVars elems
  | ref inner _ => inner.hasVars
  | func params ret => anyVars params || ret.hasVars
  | prim _ | named _ | unknown => false
where
  anyVars : List Ty → Bool
    | [] => false
    | t :: ts => t.hasVars || anyVars ts

/-- Whether `unknown` occurs anywhere. -/
def hasUnknown : Ty → Bool
  | unknown => true
  | generic _ args => anyUnknown args
  | tuple elems => anyUnknown elems
  | ref inner _ => inner.hasUnknown
  | func params ret => anyUnknown params || ret.hasUnknown
  | prim _ | named _ | var _ _ => false
where
  anyUnknown : List Ty → Bool
    | [] => false
    | t :: ts => t.hasUnknown || anyUnknown ts

/-- How deep the type is nested. Primitives and `unknown` are at zero, names and variables at
one. -/
def nesting : Ty → Nat
  | prim _ | unknown => 0
  | named _ | var _ _ => 1
  | generic _ args => deepest args + 1
  | tuple elems => deepest elems + 1
  | ref inner _ => inner.nesting + 1
  | func params ret => max (deepest params) ret.nesting + 1
where
  deepest : List Ty → Nat
    | [] => 0
    | t :: ts => max t.nesting (deepest ts)

/-! ## Text -/

def render : Ty → String
  | prim kind => kind.render
  | named name => name.render
  | generic base args => base.render ++ "<" ++ renderList args ++ ">"
  | ref inner mutable => (if mutable then "&mut " else "&") ++ inner.render
  | tuple elems => "(" ++ renderList elems ++ ")"
  | var name _ => name
  | func params ret => "fun(" ++ renderList params ++ "): " ++ ret.render
  | unknown => "?"
where
  renderList : List Ty → String
    | [] => ""
    | [t] => t.render
    | t :: ts => t.render ++ ", " ++ renderList ts

end Ty

end MoveTyping
