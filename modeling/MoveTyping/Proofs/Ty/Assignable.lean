import MoveTyping.Ty.Unify

/-!
# The order of assignability

A value may be assigned where its own type is expected, and a mutable reference where an immutable
one is, on each level of nested references. The unknown type fits everywhere and everything fits it,
so it joins types that have nothing to do with each other. Away from it, assignability is a partial
order: only the type in the middle has to be free of it for two assignments to compose.

## Main definitions

* `Ty.Fits` — assignability by its rules.

## Main results

* `Ty.assignable_iff_fits` — what is computed follows the rules.
* `Ty.Fits.trans`, `Ty.Fits.antisymm` — the laws of an order.
-/

namespace MoveTyping

namespace Ty

variable {a b c : Ty}

/-- A value of the first type may stand where the second one is expected. -/
inductive Fits : Ty → Ty → Prop
  | same (t : Ty) : Fits t t
  | ofUnknown (t : Ty) : Fits unknown t
  | toUnknown (t : Ty) : Fits t unknown
  /-- A reference promises no more than the one it is assigned from. -/
  | ref {a b : Ty} {m n : Bool} : (n = true → m = true) → Fits a b → Fits (ref a m) (ref b n)

theorem or_not_eq_true_iff {m n : Bool} : (m || !n) = true ↔ (n = true → m = true) := by
  cases m <;> cases n <;> simp

theorem Fits.assignable (h : a.Fits b) : a.assignable b = true := by
  induction h with
  | same t => simp [Ty.assignable.eq_def]
  | ofUnknown t => simp [Ty.assignable.eq_def]
  | toUnknown t => cases t <;> simp [Ty.assignable.eq_def]
  | ref hmn _ ih =>
    rw [Ty.assignable.eq_def]
    split
    · rfl
    · exact Bool.and_eq_true_iff.2 ⟨or_not_eq_true_iff.2 hmn, ih⟩

theorem fits_of_assignable (h : a.assignable b = true) : a.Fits b := by
  fun_induction assignable a b with
  | case1 t => exact .same t
  | case2 t => exact .ofUnknown t
  | case3 t => exact .toUnknown t
  | case4 a m b n _ ih =>
    obtain ⟨hmn, hab⟩ := Bool.and_eq_true_iff.1 h
    exact .ref (or_not_eq_true_iff.1 hmn) (ih hab)
  | case5 => cases h

theorem assignable_iff_fits : a.assignable b = true ↔ a.Fits b :=
  ⟨fits_of_assignable, Fits.assignable⟩

namespace Fits

/-- The unknown type is the only one through which unrelated types are joined. -/
theorem trans (h : a.Fits b) (h' : b.Fits c) (hb : b.hasUnknown = false) : a.Fits c := by
  induction h generalizing c with
  | same t => exact h'
  | ofUnknown t => exact .ofUnknown c
  | toUnknown t => cases hb
  | ref hmn hab ih =>
    cases h' with
    | same => exact .ref hmn hab
    | toUnknown => exact .toUnknown _
    | ref hnk hbc => exact .ref (fun hk => hmn (hnk hk)) (ih hbc hb)

theorem antisymm (h : a.Fits b) (h' : b.Fits a) (ha : a.hasUnknown = false)
    (hb : b.hasUnknown = false) : a = b := by
  induction h with
  | same t => rfl
  | ofUnknown t => cases ha
  | toUnknown t => cases hb
  | ref hmn hab ih =>
    cases h' with
    | same => rfl
    | ref hnm hba => rw [ih hba ha hb, Bool.eq_iff_iff.2 ⟨hnm, hmn⟩]

end Fits

/-- Assignability follows its rules, and it is a partial order away from the unknown type: reflexive
on all types, transitive through each type that is free of it, and antisymmetric on the types that
are. -/
theorem assignable_partial_order :
    (∀ a b : Ty, a.assignable b = true ↔ a.Fits b) ∧
      (∀ a : Ty, a.assignable a = true) ∧
      (∀ a b c : Ty, b.hasUnknown = false → a.assignable b = true → b.assignable c = true →
        a.assignable c = true) ∧
      ∀ a b : Ty, a.hasUnknown = false → b.hasUnknown = false → a.assignable b = true →
        b.assignable a = true → a = b := by
  refine ⟨fun _ _ => assignable_iff_fits, ?_⟩
  simp only [assignable_iff_fits]
  exact ⟨.same, fun a b c hb hab hbc => hab.trans hbc hb,
    fun a b ha hb hab hba => hab.antisymm hba ha hb⟩

/-- From `&mut &mut ?` through `&mut &u8` to `&?`. -/
theorem assignable_partial_order_nested :
    let a : Ty := .ref (.ref .unknown true) true
    let b : Ty := .ref (.ref (.prim .u8) false) true
    let c : Ty := .ref .unknown false
    b.hasUnknown = false ∧ a.assignable b = true ∧ b.assignable c = true ∧
      a.assignable c = true := by
  intro a b c
  have hb : b.hasUnknown = false := by decide
  have hab : a.assignable b = true := by decide
  have hbc : b.assignable c = true := by decide
  exact ⟨hb, hab, hbc, assignable_partial_order.2.2.1 a b c hb hab hbc⟩

/-- The type in the middle has to be free of the unknown type on all levels. -/
example :
    let middle : Ty := .ref .unknown false
    (Ty.ref (.prim .u8) true).assignable middle = true ∧
      middle.assignable (.ref (.prim .bool) false) = true ∧
      (Ty.ref (.prim .u8) true).assignable (.ref (.prim .bool) false) = false := by
  decide

end Ty

end MoveTyping
