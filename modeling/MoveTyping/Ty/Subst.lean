import MoveTyping.Table
import MoveTyping.Ty.Basic

/-!
# Substitution of type arguments

A substitution assigns types to the names of type parameters. Applying it replaces all variables
at once; replaced types are not substituted into again.

## Main definitions

* `Subst.ofArgs` — the arguments written at a use, by position.
* `Subst.bindMatching` — the arguments found by laying a declared type over an actual one. The first
  binding of a name stays.
* `Subst.replace`, `Subst.apply` — the type with its bound variables replaced, by the plain walk and
  with short cuts on every level; the two agree (`Subst.apply_eq_replace`).
-/

namespace MoveTyping

abbrev Subst := Table String Ty

namespace Subst

/-- Parameters and arguments by position; the last argument of a repeated parameter counts. -/
def ofArgs (params : List String) (args : List Ty) : Subst := .ofList (params.zip args)

/-- Binds a name that is not bound yet. -/
def bind (s : Subst) (name : String) (t : Ty) : Subst :=
  match s.get? name with
  | some _ => s
  | none => s.insert name t

/-- Whether binding `name` to `t` agrees with what is bound already. -/
def agrees (s : Subst) (name : String) (t : Ty) : Bool := (s.get? name).all (· = t)

/-- The type with its bound variables replaced. -/
def replace (s : Subst) : Ty → Ty
  | .var name bounds => (s.get? name).getD (.var name bounds)
  | .generic base args => .generic base (replaceList s args)
  | .ref inner mutable => .ref (replace s inner) mutable
  | .tuple elems => .tuple (replaceList s elems)
  | .func params ret => .func (replaceList s params) (replace s ret)
  | .prim kind => .prim kind
  | .named name => .named name
  | .unknown => .unknown
where
  replaceList (s : Subst) : List Ty → List Ty
    | [] => []
    | t :: ts => replace s t :: replaceList s ts

/-- The same, where every part without variables is kept as it stands and not walked through. -/
def replaceSharing (s : Subst) (t : Ty) : Ty :=
  if !t.hasVars then t else
  match t with
  | .var name bounds => (s.get? name).getD (.var name bounds)
  | .generic base args => .generic base (sharingList s args)
  | .ref inner mutable => .ref (replaceSharing s inner) mutable
  | .tuple elems => .tuple (sharingList s elems)
  | .func params ret => .func (sharingList s params) (replaceSharing s ret)
  | .prim kind => .prim kind
  | .named name => .named name
  | .unknown => .unknown
where
  sharingList (s : Subst) : List Ty → List Ty
    | [] => []
    | t :: ts => replaceSharing s t :: sharingList s ts

/-- Applies a substitution. No part without variables is walked through, and no type at all when
nothing is bound. -/
def apply (s : Subst) (t : Ty) : Ty := if s.isEmpty then t else s.replaceSharing t

mutual

theorem replace_of_not_hasVars (s : Subst) : ∀ {t : Ty}, t.hasVars = false → s.replace t = t
  | .var _ _, h => by simp [Ty.hasVars] at h
  | .generic base _, h => congrArg (Ty.generic base) (replaceList_of_not_anyVars s h)
  | .ref _ mutable, h => congrArg (Ty.ref · mutable) (replace_of_not_hasVars s h)
  | .tuple _, h => congrArg Ty.tuple (replaceList_of_not_anyVars s h)
  | .func params ret, h => by
    simp only [Ty.hasVars, Bool.or_eq_false_iff] at h
    simp [replace, replaceList_of_not_anyVars s h.1, replace_of_not_hasVars s h.2]
  | .prim _, _ => rfl
  | .named _, _ => rfl
  | .unknown, _ => rfl

theorem replaceList_of_not_anyVars (s : Subst) :
    ∀ {ts : List Ty}, Ty.hasVars.anyVars ts = false → replace.replaceList s ts = ts
  | [], _ => rfl
  | t :: ts, h => by
    simp only [Ty.hasVars.anyVars, Bool.or_eq_false_iff] at h
    simp [replace.replaceList, replace_of_not_hasVars s h.1, replaceList_of_not_anyVars s h.2]

end

mutual

theorem replace_of_isEmpty {s : Subst} (hs : s.isEmpty) : ∀ t : Ty, s.replace t = t
  | .var name _ => by simp [replace, Table.get?_of_isEmpty hs]
  | .generic _ args => by simp [replace, replaceList_of_isEmpty hs args]
  | .ref inner _ => by simp [replace, replace_of_isEmpty hs inner]
  | .tuple elems => by simp [replace, replaceList_of_isEmpty hs elems]
  | .func params ret => by
    simp [replace, replaceList_of_isEmpty hs params, replace_of_isEmpty hs ret]
  | .prim _ => rfl
  | .named _ => rfl
  | .unknown => rfl

theorem replaceList_of_isEmpty {s : Subst} (hs : s.isEmpty) :
    ∀ ts : List Ty, replace.replaceList s ts = ts
  | [] => rfl
  | t :: ts => by
    simp [replace.replaceList, replace_of_isEmpty hs t, replaceList_of_isEmpty hs ts]

end

mutual

theorem replaceSharing_eq_replace (s : Subst) (t : Ty) : s.replaceSharing t = s.replace t := by
  rw [replaceSharing.eq_def]
  split
  next h => exact (replace_of_not_hasVars s (by simpa using h)).symm
  next =>
    cases t with
    | generic base args => simp only [replace, sharingList_eq_replaceList s args]
    | ref inner mutable => simp only [replace, replaceSharing_eq_replace s inner]
    | tuple elems => simp only [replace, sharingList_eq_replaceList s elems]
    | func params ret =>
      simp only [replace, sharingList_eq_replaceList s params, replaceSharing_eq_replace s ret]
    | _ => rfl

theorem sharingList_eq_replaceList (s : Subst) :
    ∀ ts : List Ty, replaceSharing.sharingList s ts = replace.replaceList s ts
  | [] => rfl
  | t :: ts => by
    rw [replaceSharing.sharingList, replace.replaceList, replaceSharing_eq_replace s t,
      sharingList_eq_replaceList s ts]

end

/-- Not walking through a type gives what walking would give. -/
theorem apply_eq_replace (s : Subst) (t : Ty) : s.apply t = s.replace t := by
  unfold apply
  split
  next h => exact (replace_of_isEmpty h t).symm
  next => exact replaceSharing_eq_replace s t

/-- Binds the variables named in `params` where `declared`, laid over `actual`, has them. An
unknown actual type binds nothing, and a declared reference also fits a bare value. -/
def bindMatching (params : List String) : Subst → Ty → Ty → Subst
  | s, _, .unknown => s
  | s, .var name _, actual => if params.contains name then s.bind name actual else s
  | s, .generic base args, .generic base' args' =>
    if base = base' then bindList s args args' else s
  | s, .ref inner _, .ref inner' _ => bindMatching params s inner inner'
  | s, .ref inner _, actual => bindMatching params s inner actual
  | s, .tuple elems, .tuple elems' => bindList s elems elems'
  | s, .func ps r, .func ps' r' => bindMatching params (bindList s ps ps') r r'
  | s, _, _ => s
where
  bindList : Subst → List Ty → List Ty → Subst
    | s, d :: ds, a :: as => bindList (bindMatching params s d a) ds as
    | s, _, _ => s

end Subst

end MoveTyping
