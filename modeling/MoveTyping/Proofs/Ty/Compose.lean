import MoveTyping.Proofs.Ty.Canonical

/-!
# Substitutions one after the other

Applying two substitutions, one after the other, is applying one substitution. It binds what the
first one binds, with the second one applied to the binding, and what only the second one binds.

A substitution replaces all variables at once and leaves alone what it has put in their place. So
the variables of the outcome are, from left to right, those of the types put in the place of bound
variables, and the variables that are not bound.

## Main definitions

* `Subst.after` — one substitution after another.

## Main results

* `Subst.replace_after` — replacing by one substitution and then by another.
* `Subst.vars_replace` — the variables of an instance.
* `Subst.apply_apply_eq_apply_after` — the law for `Subst.apply`, with its short cuts.
-/

namespace MoveTyping

/-- No two rows have one key, so the last row of a key is its only one. -/
theorem Table.get?_eq_getLast? {κ α : Type} [DecidableEq κ] (t : Table κ α) (k : κ) :
    t.get? k = (t.rows.filter (·.1 = k)).getLast?.map Prod.snd := by
  obtain ⟨rows, hnodup⟩ := t
  unfold get?
  induction rows with
  | nil => rfl
  | cons r rows ih =>
    obtain ⟨hr, hnodup⟩ := List.nodup_cons.1 hnodup
    by_cases hk : r.1 = k
    · have hrest : rows.filter (·.1 = k) = [] := by
        refine List.filter_eq_nil_iff.2 fun r' hr' => ?_
        have hkey : r'.1 ≠ r.1 := fun heq => hr (heq ▸ List.mem_map_of_mem hr')
        simpa [← hk] using hkey
      simp [rowValue, hk, hrest]
    · simpa [rowValue, hk] using ih hnodup

namespace Subst

/-! ## Composition -/

/-- Binds what `s` binds, with `r` applied to the binding, and what only `r` binds. -/
def after (r s : Subst) : Subst := s.rows.foldl (fun q p => q.insert p.1 (r.apply p.2)) r

theorem get?_after (r s : Subst) (x : String) :
    (r.after s).get? x = ((s.get? x).map r.apply).or (r.get? x) := by
  rw [after, Table.get?_foldl_insert Prod.fst (fun p => r.apply p.2), Table.get?_eq_getLast? s,
    Option.map_map]
  rfl

theorem replace_after (r s : Subst) (t : Ty) : (r.after s).replace t = r.replace (s.replace t) := by
  induction t using Ty.ind with
  | var x bounds =>
    simp only [replace, get?_after]
    cases s.get? x with
    | none => rfl
    -- the binding has been through `r` when the two were composed
    | some u => exact r.apply_eq_replace u
  | generic base args ih =>
    simp only [replace, replaceList_eq_map, List.map_map]
    exact congrArg (Ty.generic base) (List.map_congr_left ih)
  | ref inner mutable ih => simp only [replace, ih]
  | tuple elems ih =>
    simp only [replace, replaceList_eq_map, List.map_map]
    exact congrArg Ty.tuple (List.map_congr_left ih)
  | func params ret ihparams ihret =>
    simp only [replace, replaceList_eq_map, List.map_map, ihret]
    exact congrArg (Ty.func · _) (List.map_congr_left ihparams)
  | prim kind => rfl
  | named name => rfl
  | unknown => rfl

/-! ## Variables of an instance -/

/-- The variables that stand in the place of a variable. -/
def varsAt (s : Subst) (x : String) : List String := (s.get? x).elim [x] Ty.vars

theorem varsOf_eq_flatMap (ts : List Ty) : Ty.vars.varsOf ts = ts.flatMap Ty.vars := by
  induction ts with
  | nil => rfl
  | cons t ts ih => rw [Ty.vars.varsOf, ih, List.flatMap_cons]

theorem varsOf_replaceList (s : Subst) {ts : List Ty}
    (h : ∀ t ∈ ts, (s.replace t).vars = t.vars.flatMap s.varsAt) :
    Ty.vars.varsOf (replace.replaceList s ts) = (Ty.vars.varsOf ts).flatMap s.varsAt := by
  rw [replaceList_eq_map, varsOf_eq_flatMap, varsOf_eq_flatMap, List.flatMap_map,
    List.flatMap_assoc]
  exact List.flatMap_congr h

/-- The variables of an instance are those of the types put in, which are not looked into again, and
those that are not bound. -/
theorem vars_replace (s : Subst) (t : Ty) : (s.replace t).vars = t.vars.flatMap s.varsAt := by
  induction t using Ty.ind with
  | var x bounds =>
    rw [replace, Ty.vars, List.flatMap_singleton, varsAt]
    cases s.get? x <;> rfl
  | generic base args ih => exact varsOf_replaceList s ih
  | ref inner mutable ih => exact ih
  | tuple elems ih => exact varsOf_replaceList s ih
  | func params ret ihparams ihret =>
    rw [replace, Ty.vars, Ty.vars, List.flatMap_append, varsOf_replaceList s ihparams, ihret]
  | prim kind => rfl
  | named name => rfl
  | unknown => rfl

/-- Applying `s` and then `r` is applying `r.after s`, which binds each name bound by `s` to its
binding with `r` applied, and each other name as `r` does. The short cuts change nothing, and the
types that are put in are not looked into again. -/
theorem apply_apply_eq_apply_after (r s : Subst) (t : Ty) :
    r.apply (s.apply t) = (r.after s).apply t ∧
      (∀ x, (r.after s).get? x = ((s.get? x).map r.apply).or (r.get? x)) ∧
      s.apply t = s.replace t ∧ (s.apply t).vars = t.vars.flatMap s.varsAt := by
  refine ⟨?_, get?_after r s, s.apply_eq_replace t, ?_⟩
  · rw [apply_eq_replace, apply_eq_replace, apply_eq_replace, replace_after]
  · rw [apply_eq_replace, vars_replace]

/-- Two variables trade places. -/
example :
    let s := ofArgs ["T", "U"] [.vector (.var "U" ∅), .var "T" ∅]
    s.apply (.func [.var "T" ∅] (.ref (.var "U" ∅) true)) =
      .func [.vector (.var "U" ∅)] (.ref (.var "T" ∅) true) := by
  decide

end Subst

end MoveTyping
