import MoveTyping.Proofs.Signature.Render
import MoveTyping.Proofs.Ty.Matching

/-!
# What matching binds

Matching lays a declared type over an actual one. A variable of the declared type then lies on a
part of the actual type, unless the two differ above it. Only parameters that lie on a known type
are bound, and only if they are not bound yet, so no binding is lost and none is made up.

## Main definitions

* `Ty.LiesOn` — a variable of the declared type lies on a part of the actual one.

## Main results

* `Subst.bindMatching_induction` — matching is a sequence of bindings of parameters to known parts
  that they lie on.
* `Subst.bindMatching_conservative` — what is bound after matching.
-/

namespace MoveTyping

namespace Ty

variable {x : String} {u d a : Ty}

/-- The first type is laid over the second one, and its variable `x` lies on the known part `u`. -/
inductive LiesOn (x : String) (u : Ty) : Ty → Ty → Prop
  | var {bounds : AbilitySet} : u ≠ unknown → LiesOn x u (.var x bounds) u
  /-- Arguments without a counterpart lie on nothing. -/
  | generic {base : QName} {ds as : List Ty} {d a : Ty} : (d, a) ∈ ds.zip as → LiesOn x u d a →
      LiesOn x u (.generic base ds) (.generic base as)
  | ref {d a : Ty} {mutable mutable' : Bool} : LiesOn x u d a →
      LiesOn x u (.ref d mutable) (.ref a mutable')
  /-- A declared reference also fits a bare value. -/
  | bare {d a : Ty} {mutable : Bool} : (∀ b mutable', a ≠ .ref b mutable') → LiesOn x u d a →
      LiesOn x u (.ref d mutable) a
  | tuple {ds as : List Ty} {d a : Ty} : (d, a) ∈ ds.zip as → LiesOn x u d a →
      LiesOn x u (.tuple ds) (.tuple as)
  | param {ds as : List Ty} {d a r r' : Ty} : (d, a) ∈ ds.zip as → LiesOn x u d a →
      LiesOn x u (.func ds r) (.func as r')
  | ret {ds as : List Ty} {r r' : Ty} : LiesOn x u r r' → LiesOn x u (.func ds r) (.func as r')

namespace LiesOn

theorem ne_unknown (h : LiesOn x u d a) : u ≠ .unknown := by
  induction h <;> assumption

theorem actual_ne_unknown (h : LiesOn x u d a) : a ≠ .unknown := by
  induction h with
  | var hne => exact hne
  | bare _ _ ih => exact ih
  | _ => simp

theorem mem_vars (h : LiesOn x u d a) : x ∈ d.vars := by
  induction h with
  | var => simp [vars]
  | generic hzip _ ih => exact mem_varsOf.2 ⟨_, (List.of_mem_zip hzip).1, ih⟩
  | ref _ ih => exact ih
  | bare _ _ ih => exact ih
  | tuple hzip _ ih => exact mem_varsOf.2 ⟨_, (List.of_mem_zip hzip).1, ih⟩
  | param hzip _ ih =>
    exact List.mem_append_left _ (mem_varsOf.2 ⟨_, (List.of_mem_zip hzip).1, ih⟩)
  | ret _ ih => exact List.mem_append_right _ ih

theorem mem_parts (h : LiesOn x u d a) : u ∈ a.parts := by
  induction h with
  | var => exact mem_parts_self _
  | generic hzip _ ih =>
    exact List.mem_cons_of_mem _ (parts_subset_partsOf (List.of_mem_zip hzip).2 ih)
  | ref _ ih => exact List.mem_cons_of_mem _ ih
  | bare _ _ ih => exact ih
  | tuple hzip _ ih =>
    exact List.mem_cons_of_mem _ (parts_subset_partsOf (List.of_mem_zip hzip).2 ih)
  | param hzip _ ih =>
    have hmem := parts_subset_partsOf (List.of_mem_zip hzip).2 ih
    exact List.mem_cons_of_mem _ (List.mem_append_left _ hmem)
  | ret _ ih => exact List.mem_cons_of_mem _ (List.mem_append_right _ ih)

end LiesOn

end Ty

namespace Subst

variable {s : Subst} {params : List String} {x : String} {declared actual u : Ty}

/-- What holds of a substitution holds after matching, if it is kept when a parameter is bound to a
part that it lies on. -/
theorem bindMatching_induction {P : Subst → Prop} (hs : P s)
    (hbind : ∀ s x u, x ∈ params → Ty.LiesOn x u declared actual → P s → P (s.bind x u)) :
    P (s.bindMatching params declared actual) := by
  induction s, declared, actual using Subst.bindMatching.induct params
    (fun s ds as => P s →
      (∀ s x u, x ∈ params → ∀ d a, (d, a) ∈ ds.zip as → Ty.LiesOn x u d a → P s → P (s.bind x u)) →
      P (bindMatching.bindList params s ds as)) with
  | case1 s declared => rwa [Subst.bindMatching.eq_1]
  | case2 s name bounds actual hne hname =>
    rw [Subst.bindMatching.eq_2 _ _ _ _ _ hne, if_pos hname]
    exact hbind s name actual (by simpa using hname) (.var hne) hs
  | case3 s name bounds actual hne hname =>
    rwa [Subst.bindMatching.eq_2 _ _ _ _ _ hne, if_neg hname]
  | case4 s args base args' ih =>
    rw [Subst.bindMatching, if_pos rfl]
    exact ih hs fun s x u hx d a hzip h => hbind s x u hx (.generic hzip h)
  | case5 s base args base' args' hbase => rwa [Subst.bindMatching, if_neg hbase]
  | case6 s inner mutable inner' mutable' ih =>
    rw [Subst.bindMatching]
    exact ih hs fun s x u hx h => hbind s x u hx (.ref h)
  | case7 s inner mutable actual hne href ih =>
    rw [Subst.bindMatching.eq_5 _ _ _ _ _ hne href]
    exact ih hs fun s x u hx h => hbind s x u hx (.bare href h)
  | case8 s elems elems' ih =>
    rw [Subst.bindMatching]
    exact ih hs fun s x u hx d a hzip h => hbind s x u hx (.tuple hzip h)
  | case9 s ps r ps' r' ihps ihr =>
    rw [Subst.bindMatching]
    have hps := ihps hs fun s x u hx d a hzip h => hbind s x u hx (.param hzip h)
    exact ihr hps fun s x u hx h => hbind s x u hx (.ret h)
  | case10 declared s actual => rw [Subst.bindMatching.eq_8] <;> assumption
  | case11 s d ds a as ihd ihds hs hbind =>
    have hd := ihd hs fun s x u hx h => hbind s x u hx d a List.mem_cons_self h
    exact ihds hd fun s x u hx d' a' hzip h =>
      hbind s x u hx d' a' (List.mem_cons_of_mem _ hzip) h
  | case12 ds s as hcons hs => rwa [bindMatching.bindList.eq_2 _ _ _ _ hcons]

/-- Matching keeps every binding. -/
theorem get?_bindMatching_of_some (h : s.get? x = some u) (declared actual : Ty) :
    (s.bindMatching params declared actual).get? x = some u := by
  refine bindMatching_induction (P := fun s => s.get? x = some u) h fun s y v _ _ hs => ?_
  rw [get?_bind, hs, Option.some_or]

/-- A binding after matching was there before, or is of a parameter to a part that it lies on. -/
theorem get?_bindMatching_cases
    (h : (s.bindMatching params declared actual).get? x = some u) :
    s.get? x = some u ∨ x ∈ params ∧ Ty.LiesOn x u declared actual := by
  refine bindMatching_induction
    (P := fun s' => s'.get? x = some u →
      s.get? x = some u ∨ x ∈ params ∧ Ty.LiesOn x u declared actual) .inl ?_ h
  intro s' y v hy hlies ih hbound
  rw [get?_bind, Option.or_eq_some_iff] at hbound
  rcases hbound with hbound | ⟨-, hbound⟩
  · exact ih hbound
  · split at hbound
    next heq =>
      obtain rfl := Option.some.inj hbound
      exact .inr (heq ▸ ⟨hy, hlies⟩)
    next => cases hbound

theorem get?_bindMatching_of_notMem (hx : x ∉ params) (s : Subst) (declared actual : Ty) :
    (s.bindMatching params declared actual).get? x = s.get? x := by
  refine bindMatching_induction (P := fun s' => s'.get? x = s.get? x) rfl fun s' y u hy _ hs' => ?_
  have hne : x ≠ y := fun h => hx (h ▸ hy)
  rw [get?_bind, if_neg hne, Option.or_none, hs']

theorem bindList_eq_foldl (params : List String) (s : Subst) (ds as : List Ty) :
    bindMatching.bindList params s ds as =
      (ds.zip as).foldl (fun s p => s.bindMatching params p.1 p.2) s := by
  induction ds generalizing s as with
  | nil => rfl
  | cons d ds ih =>
    cases as with
    | nil => rfl
    | cons a as => exact ih (s.bindMatching params d a) as

theorem isSome_get?_foldl_bindMatching {ps : List (Ty × Ty)} (h : ((s.get? x).isSome = true)) :
    ((ps.foldl (fun s p => s.bindMatching params p.1 p.2) s).get? x).isSome = true := by
  induction ps generalizing s with
  | nil => exact h
  | cons p ps ih =>
    obtain ⟨u, hu⟩ := Option.isSome_iff_exists.1 h
    exact ih (by rw [get?_bindMatching_of_some hu]; rfl)

theorem isSome_get?_bindList {ds as : List Ty} {d a : Ty} (hzip : (d, a) ∈ ds.zip as)
    (h : ∀ s : Subst, ((s.bindMatching params d a).get? x).isSome = true) (s : Subst) :
    ((bindMatching.bindList params s ds as).get? x).isSome = true := by
  obtain ⟨before, after, hsplit⟩ := List.append_of_mem hzip
  rw [bindList_eq_foldl, hsplit, List.foldl_append, List.foldl_cons]
  exact isSome_get?_foldl_bindMatching (h _)

/-- A parameter that lies on a known part is bound. -/
theorem isSome_get?_bindMatching (hx : x ∈ params) (h : Ty.LiesOn x u declared actual)
    (s : Subst) : ((s.bindMatching params declared actual).get? x).isSome = true := by
  induction h generalizing s with
  | var hne =>
    rw [Subst.bindMatching.eq_2 _ _ _ _ _ hne, if_pos (by simpa using hx), get?_bind, if_pos rfl]
    simp
  | generic hzip _ ih =>
    rw [Subst.bindMatching, if_pos rfl]
    exact isSome_get?_bindList hzip ih s
  | ref _ ih =>
    rw [Subst.bindMatching]
    exact ih s
  | bare href hlies ih =>
    rw [Subst.bindMatching.eq_5 _ _ _ _ _ hlies.actual_ne_unknown href]
    exact ih s
  | tuple hzip _ ih =>
    rw [Subst.bindMatching]
    exact isSome_get?_bindList hzip ih s
  | param hzip _ ih =>
    rw [Subst.bindMatching]
    obtain ⟨v, hv⟩ := Option.isSome_iff_exists.1 (isSome_get?_bindList hzip ih s)
    rw [get?_bindMatching_of_some hv]
    rfl
  | ret _ ih =>
    rw [Subst.bindMatching]
    exact ih _

/-- After matching, every earlier binding is unchanged. Every new one is of a parameter that occurs
as a variable in the declared type, to a part of the actual type that is known and that the variable
lies on. And every parameter that lies on a known part is bound. -/
theorem bindMatching_conservative (s : Subst) (params : List String) (declared actual : Ty) :
    let s' := s.bindMatching params declared actual
    (∀ x u, s.get? x = some u → s'.get? x = some u) ∧
      (∀ x u, s.get? x = none → s'.get? x = some u →
        x ∈ params ∧ x ∈ declared.vars ∧ u ∈ actual.parts ∧ u ≠ .unknown ∧
          Ty.LiesOn x u declared actual) ∧
      ∀ x ∈ params, ∀ u, Ty.LiesOn x u declared actual → (s'.get? x).isSome = true := by
  intro s'
  refine ⟨fun x u h => get?_bindMatching_of_some h declared actual, fun x u hnew h => ?_,
    fun x hx u h => isSome_get?_bindMatching hx h s⟩
  rcases get?_bindMatching_cases h with hold | ⟨hx, hlies⟩
  · simp [hnew] at hold
  · exact ⟨hx, hlies.mem_vars, hlies.mem_parts, hlies.ne_unknown, hlies⟩

/-- The first component is declared as a reference and is a bare value, the second one is not known,
the third has a parameter that is bound already, and the fourth has no counterpart. -/
theorem bindMatching_conservative_tuple :
    let s : Subst := .ofArgs ["V"] [.prim .u64]
    let declared : Ty := .tuple [.ref (.var "T" ∅) false, .vector (.var "U" ∅),
      .func [.var "V" ∅] (.var "T" ∅), .var "U" ∅]
    let actual : Ty := .tuple [.prim .u8, .vector .unknown, .func [.prim .bool] (.prim .u16)]
    let s' := s.bindMatching ["T", "U", "V"] declared actual
    s'.get? "V" = some (.prim .u64) ∧ s'.get? "T" = some (.prim .u8) ∧ s'.get? "U" = none ∧
      Ty.LiesOn "T" (.prim .u8) declared actual := by
  intro s declared actual s'
  have hbound : s'.get? "T" = some (.prim .u8) ∧ s'.get? "U" = none := by decide
  obtain ⟨hold, hnew, -⟩ := bindMatching_conservative s ["T", "U", "V"] declared actual
  obtain ⟨-, -, -, -, hlies⟩ := hnew "T" (.prim .u8) (by decide) hbound.1
  exact ⟨hold "V" (.prim .u64) (by decide), hbound.1, hbound.2, hlies⟩

end Subst

end MoveTyping
