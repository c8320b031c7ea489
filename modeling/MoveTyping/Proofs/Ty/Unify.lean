import Mathlib.Data.List.Forall2
import MoveTyping.Proofs.Ty.Canonical

/-!
# Unification in any order

A type variable yields to every type, a generic type to one of the same base if its arguments yield
to the arguments there, and every type to itself. Two types unify if there is a type that both yield
to, and what they unify to is the least such type: it yields to all the others.

Types of which every two have such a type have one in common. So the elements of a list unify, in
whatever order they are taken, if every two of them do. Where two orders give different types, each
yields to the other, so they differ in their variables only.

## Main definitions

* `IsJoin` — the least element above two others, where there is one.
* `Ty.Yields` — the order of types in which unification is the join.
* `Ty.Meets` — there is a type that both types yield to.

## Main results

* `Ty.isJoin_unify?` — unification gives the least type that both types yield to.
* `Ty.Meets.exists_bound` — three types of which every two meet yield to one type.
* `Ty.forall_yields_iff_unifyAll?` — folding gives the least type that all elements yield to.
* `Ty.unifyAll?_order_irrelevant` — what does not depend on the order of the elements.
-/

namespace MoveTyping

/-! ## Joins -/

section Joins

variable {α : Type} {R : α → α → Prop} {a b : α}

/-- The least element above two others, or `none` if nothing is above both. -/
def IsJoin (R : α → α → Prop) (a b : α) (x : Option α) : Prop :=
  ∀ v, R a v ∧ R b v ↔ ∃ t, x = some t ∧ R t v

theorem isJoin_left (h : ∀ v, R a v → R b v) : IsJoin R a b (some a) := by
  intro v
  simpa using h v

theorem isJoin_right (h : ∀ v, R b v → R a v) : IsJoin R a b (some b) := by
  intro v
  simpa using h v

theorem isJoin_none (h : ∀ v, R a v → ¬ R b v) : IsJoin R a b none := by
  intro v
  simpa using h v

/-- Lists are joined element by element. -/
theorem isJoin_cons {as bs : List α} {x : Option α} {xs : Option (List α)} (h : IsJoin R a b x)
    (hs : IsJoin (List.Forall₂ R) as bs xs) :
    IsJoin (List.Forall₂ R) (a :: as) (b :: bs)
      (x.bind fun t => xs.bind fun ts => some (t :: ts)) := by
  intro vs
  simp only [Option.bind_eq_some_iff, Option.some.injEq]
  constructor
  · rintro ⟨ha, hb⟩
    cases ha with
    | cons ha has =>
      cases hb with
      | cons hb hbs =>
        obtain ⟨t, ht, htv⟩ := (h _).1 ⟨ha, hb⟩
        obtain ⟨ts, hts, htvs⟩ := (hs _).1 ⟨has, hbs⟩
        exact ⟨t :: ts, ⟨t, ht, ts, hts, rfl⟩, .cons htv htvs⟩
  · rintro ⟨_, ⟨t, ht, ts, hts, rfl⟩, hvs⟩
    cases hvs with
    | cons htv htvs =>
      obtain ⟨ha, hb⟩ := (h _).2 ⟨t, ht, htv⟩
      obtain ⟨has, hbs⟩ := (hs _).2 ⟨ts, hts, htvs⟩
      exact ⟨.cons ha has, .cons hb hbs⟩

end Joins

namespace Ty

variable {a b c t u v : Ty} {as bs cs ts us vs : List Ty} {base : QName}

/-! ## Yielding -/

/-- Unified with the second type, the first one gives way. -/
inductive Yields : Ty → Ty → Prop
  | same (t : Ty) : Yields t t
  | free (name : String) (bounds : AbilitySet) (t : Ty) : Yields (var name bounds) t
  | args (base : QName) {ts us : List Ty} : List.Forall₂ Yields ts us →
      Yields (generic base ts) (generic base us)

theorem forall₂_yields_self (ts : List Ty) : List.Forall₂ Yields ts ts :=
  List.forall₂_same.2 fun t _ => .same t

theorem generic_yields_iff :
    (generic base ts).Yields u ↔ ∃ us, u = generic base us ∧ List.Forall₂ Yields ts us := by
  constructor
  · intro h
    cases h with
    | same => exact ⟨ts, rfl, forall₂_yields_self ts⟩
    | args _ hargs => exact ⟨_, rfl, hargs⟩
  · rintro ⟨us, rfl, hargs⟩
    exact .args base hargs

theorem Yields.var_or_generic (h : t.Yields (generic base us)) :
    (∃ name bounds, t = var name bounds) ∨
      ∃ ts, t = generic base ts ∧ List.Forall₂ Yields ts us := by
  cases h with
  | same => exact .inr ⟨us, rfl, forall₂_yields_self us⟩
  | free name bounds => exact .inl ⟨name, bounds, rfl⟩
  | args _ hargs => exact .inr ⟨_, rfl, hargs⟩

theorem eq_of_forall₂_yields (h : List.Forall₂ Yields ts us) (hts : hasVars.anyVars ts = false)
    (ih : ∀ t ∈ ts, ∀ {u}, t.Yields u → t.hasVars = false → t = u) : ts = us := by
  induction h with
  | nil => rfl
  | cons hhead _ ihtail =>
    obtain ⟨hvars, htail⟩ := Bool.or_eq_false_iff.1 hts
    rw [ih _ List.mem_cons_self hhead hvars,
      ihtail htail fun t ht => ih t (List.mem_cons_of_mem _ ht)]

/-- A type without variables yields to itself only. -/
theorem Yields.eq_of_not_hasVars (h : t.Yields u) (ht : t.hasVars = false) : t = u := by
  induction t using Ty.ind generalizing u with
  | var name bounds => cases ht
  | generic base args ih =>
    obtain ⟨us, rfl, hargs⟩ := generic_yields_iff.1 h
    rw [eq_of_forall₂_yields hargs ht ih]
  | _ =>
    cases h
    rfl

/-! ## Two types -/

/-- What generic types of one base yield to is of that base, so their arguments are joined. -/
theorem isJoin_generic {x : Option (List Ty)} (h : IsJoin (List.Forall₂ Yields) as bs x) :
    IsJoin Yields (generic base as) (generic base bs) (x.map (generic base)) := by
  intro v
  constructor
  · rintro ⟨ha, hb⟩
    obtain ⟨vs, rfl, has⟩ := generic_yields_iff.1 ha
    obtain ⟨_, heq, hbs⟩ := generic_yields_iff.1 hb
    obtain ⟨-, rfl⟩ := Ty.generic.inj heq
    obtain ⟨ts, hts, htvs⟩ := (h vs).1 ⟨has, hbs⟩
    exact ⟨generic base ts, by rw [hts, Option.map_some], .args base htvs⟩
  · rintro ⟨t, ht, htv⟩
    obtain ⟨ts, hts, rfl⟩ := Option.map_eq_some_iff.1 ht
    obtain ⟨vs, rfl, htvs⟩ := generic_yields_iff.1 htv
    obtain ⟨has, hbs⟩ := (h vs).2 ⟨ts, hts, htvs⟩
    exact ⟨.args base has, .args base hbs⟩

/-- Two types that differ, and are neither variables nor generic types of one base, yield to no
common type. -/
theorem Yields.not_both (hne : a ≠ b) (ha : ∀ name bounds, a ≠ .var name bounds)
    (hb : ∀ name bounds, b ≠ .var name bounds)
    (hgeneric : ∀ base as bs, a = .generic base as → b ≠ .generic base bs) (hav : a.Yields v) :
    ¬ b.Yields v := by
  intro hbv
  cases hav with
  | same =>
    cases hbv with
    | same => exact hne rfl
    | free name bounds => exact hb name bounds rfl
    | args base => exact hgeneric base _ _ rfl rfl
  | free name bounds => exact ha name bounds rfl
  | args base =>
    obtain ⟨name, bounds, rfl⟩ | ⟨bs, rfl, -⟩ := hbv.var_or_generic
    · exact hb name bounds rfl
    · exact hgeneric base _ _ rfl rfl

/-- Unification gives the least type that both types yield to. -/
theorem isJoin_unify? (a b : Ty) : IsJoin Yields a b (unify? a b) := by
  induction a, b using unify?.induct
    (fun as bs => IsJoin (List.Forall₂ Yields) as bs (unify?.unifyList? as bs)) with
  | case1 t =>
    rw [unify?.eq_def, if_pos rfl]
    exact isJoin_left fun _ h => h
  | case2 b name bounds hne =>
    rw [unify?.eq_def, if_neg hne]
    exact isJoin_right fun v _ => .free name bounds v
  | case3 a name bounds ha hne =>
    have hunify : unify? a (var name bounds) = some a := by
      rw [unify?.eq_def, if_neg hne]
      cases a with
      | var name bounds => exact absurd rfl (ha name bounds)
      | _ => rfl
    rw [hunify]
    exact isJoin_left fun v _ => .free name bounds v
  | case4 as base bs hne ih =>
    rw [unify?.eq_def, if_neg hne]
    simpa only [↓reduceIte] using isJoin_generic ih
  | case5 base as base' bs hbase hne =>
    rw [unify?.eq_def, if_neg hne]
    simp only [if_neg hbase]
    refine isJoin_none fun v => Yields.not_both hne (by simp) (by simp) ?_
    rintro base as bs ⟨⟩ ⟨⟩
    exact hbase rfl
  | case6 a b hne ha hb hgeneric =>
    have hunify : unify? a b = none := by
      rw [unify?.eq_def, if_neg hne]
      split
      · exact absurd rfl (ha _ _)
      · exact absurd rfl (hb _ _)
      · exact absurd rfl (hgeneric _ _ _ _ rfl)
      · rfl
    rw [hunify]
    exact isJoin_none fun v => Yields.not_both hne ha hb fun base as bs => hgeneric base as base bs
  | case7 => exact isJoin_left fun _ h => h
  | case8 a as b bs ih ihs => exact isJoin_cons ih ihs
  | case9 as bs hnil hcons =>
    -- lists of different lengths
    rw [unify?.unifyList?.eq_3 as bs hnil hcons]
    refine isJoin_none fun vs has hbs => ?_
    cases has with
    | nil =>
      cases hbs
      exact hnil rfl rfl
    | cons =>
      cases hbs
      exact hcons _ _ _ _ rfl rfl

/-! ## Types that meet -/

/-- There is a type that both types yield to. -/
def Meets (t u : Ty) : Prop := ∃ v, t.Yields v ∧ u.Yields v

theorem unify?_isSome_iff : (unify? a b).isSome = true ↔ a.Meets b := by
  rw [Option.isSome_iff_exists]
  constructor
  · rintro ⟨t, ht⟩
    exact ⟨t, (isJoin_unify? a b t).2 ⟨t, ht, .same t⟩⟩
  · rintro ⟨v, hv⟩
    obtain ⟨t, ht, -⟩ := (isJoin_unify? a b v).1 hv
    exact ⟨t, ht⟩

theorem forall₂_meets (hts : List.Forall₂ Yields ts vs) (hus : List.Forall₂ Yields us vs) :
    List.Forall₂ Meets ts us := by
  induction hts generalizing us with
  | nil =>
    cases hus
    exact .nil
  | cons ht _ ih =>
    cases hus with
    | cons hu hus => exact .cons ⟨_, ht, hu⟩ (ih hus)

/-- What meets a generic type is a variable, or its arguments meet. -/
theorem Meets.var_or_generic (h : (generic base ts).Meets u) :
    (∃ name bounds, u = var name bounds) ∨
      ∃ us, u = generic base us ∧ List.Forall₂ Meets ts us := by
  obtain ⟨v, ht, hu⟩ := h
  obtain ⟨vs, rfl, hts⟩ := generic_yields_iff.1 ht
  obtain hvar | ⟨us, rfl, hus⟩ := hu.var_or_generic
  · exact .inl hvar
  · exact .inr ⟨us, rfl, forall₂_meets hts hus⟩

theorem exists_bound_of_forall₂ (hab : List.Forall₂ Meets as bs) (hac : List.Forall₂ Meets as cs)
    (hbc : List.Forall₂ Meets bs cs)
    (ih : ∀ a ∈ as, ∀ {b c}, a.Meets b → a.Meets c → b.Meets c →
      ∃ v, a.Yields v ∧ b.Yields v ∧ c.Yields v) :
    ∃ vs, List.Forall₂ Yields as vs ∧ List.Forall₂ Yields bs vs ∧ List.Forall₂ Yields cs vs := by
  induction hab generalizing cs with
  | nil =>
    cases hac
    exact ⟨[], .nil, .nil, .nil⟩
  | cons hab _ ihtail =>
    cases hac with
    | cons hac hacs =>
      cases hbc with
      | cons hbc hbcs =>
        obtain ⟨v, ha, hb, hc⟩ := ih _ List.mem_cons_self hab hac hbc
        obtain ⟨vs, has, hbs, hcs⟩ :=
          ihtail hacs hbcs fun a ha => ih a (List.mem_cons_of_mem _ ha)
        exact ⟨v :: vs, .cons ha has, .cons hb hbs, .cons hc hcs⟩

/-- Three types of which every two meet yield to one type. -/
theorem Meets.exists_bound (hab : a.Meets b) (hac : a.Meets c) (hbc : b.Meets c) :
    ∃ v, a.Yields v ∧ b.Yields v ∧ c.Yields v := by
  induction a using Ty.ind generalizing b c with
  | var name bounds =>
    obtain ⟨v, hb, hc⟩ := hbc
    exact ⟨v, .free name bounds v, hb, hc⟩
  | generic base as ih =>
    -- a variable among the other two leaves a pair, which has a bound by hypothesis
    obtain ⟨name, bounds, rfl⟩ | ⟨bs, rfl, has⟩ := hab.var_or_generic
    · obtain ⟨v, ha, hc⟩ := hac
      exact ⟨v, ha, .free name bounds v, hc⟩
    obtain ⟨name, bounds, rfl⟩ | ⟨cs, rfl, hacs⟩ := hac.var_or_generic
    · obtain ⟨v, ha, hb⟩ := hab
      exact ⟨v, ha, hb, .free name bounds v⟩
    obtain ⟨_, _, hvar⟩ | ⟨cs', hcs, hbcs⟩ := hbc.var_or_generic
    · cases hvar
    · cases hcs
      obtain ⟨vs, has, hbs, hcs⟩ := exists_bound_of_forall₂ has hacs hbcs ih
      exact ⟨generic base vs, .args base has, .args base hbs, .args base hcs⟩
  | _ =>
    -- such a type yields to itself only
    obtain ⟨v, ha, hb⟩ := hab
    obtain ⟨w, ha', hc⟩ := hac
    cases ha
    cases ha'
    exact ⟨_, .same _, hb, hc⟩

/-! ## Lists of types -/

/-- Folding gives the least type that all of the types yield to. -/
theorem forall_yields_iff_foldlM (t : Ty) (ts : List Ty) (v : Ty) :
    (∀ u ∈ t :: ts, u.Yields v) ↔ ∃ u, ts.foldlM unify? t = some u ∧ u.Yields v := by
  induction ts generalizing t with
  | nil => simp
  | cons u ts ih =>
    rw [List.foldlM_cons]
    constructor
    · intro h
      simp only [List.forall_mem_cons] at h
      obtain ⟨w, hw, hwv⟩ := (isJoin_unify? t u v).1 ⟨h.1, h.2.1⟩
      obtain ⟨r, hr, hrv⟩ := (ih w).1 (List.forall_mem_cons.2 ⟨hwv, h.2.2⟩)
      exact ⟨r, Option.bind_eq_some_iff.2 ⟨w, hw, hr⟩, hrv⟩
    · rintro ⟨r, hr, hrv⟩
      obtain ⟨w, hw, hr⟩ := Option.bind_eq_some_iff.1 hr
      obtain ⟨hwv, hts⟩ := List.forall_mem_cons.1 ((ih w).2 ⟨r, hr, hrv⟩)
      obtain ⟨htv, huv⟩ := (isJoin_unify? t u v).2 ⟨w, hw, hwv⟩
      simp only [List.forall_mem_cons]
      exact ⟨htv, huv, hts⟩

theorem forall_yields_iff_unifyAll? (hts : ts ≠ []) (v : Ty) :
    (∀ t ∈ ts, t.Yields v) ↔ ∃ u, unifyAll? ts = some u ∧ u.Yields v := by
  cases ts with
  | nil => exact absurd rfl hts
  | cons t ts => exact forall_yields_iff_foldlM t ts v

theorem unifyAll?_isSome_iff (hts : ts ≠ []) :
    (unifyAll? ts).isSome = true ↔ ∃ v, ∀ t ∈ ts, t.Yields v := by
  rw [Option.isSome_iff_exists]
  constructor
  · rintro ⟨u, hu⟩
    exact ⟨u, (forall_yields_iff_unifyAll? hts u).2 ⟨u, hu, .same u⟩⟩
  · rintro ⟨v, hv⟩
    obtain ⟨u, hu, -⟩ := (forall_yields_iff_unifyAll? hts v).1 hv
    exact ⟨u, hu⟩

/-- What meets each of two types meets what they unify to. -/
theorem Meets.unify? (h : Ty.unify? a b = some t) (hac : a.Meets c) (hbc : b.Meets c) :
    t.Meets c := by
  have hab : a.Meets b := unify?_isSome_iff.1 (by simp [h])
  obtain ⟨v, ha, hb, hc⟩ := hab.exists_bound hac hbc
  obtain ⟨t', ht', htv⟩ := (isJoin_unify? a b v).1 ⟨ha, hb⟩
  rw [h] at ht'
  obtain rfl := Option.some.inj ht'
  exact ⟨v, htv, hc⟩

/-- Types of which every two meet yield to one type. -/
theorem exists_bound_of_pairwise (t : Ty) (ts : List Ty) (h : (t :: ts).Pairwise Meets) :
    ∃ v, ∀ u ∈ t :: ts, u.Yields v := by
  induction ts generalizing t with
  | nil => exact ⟨t, by simpa using .same t⟩
  | cons u ts ih =>
    simp only [List.pairwise_cons, List.forall_mem_cons] at h
    obtain ⟨⟨htu, hts⟩, hus, hpairs⟩ := h
    obtain ⟨w, hw⟩ := Option.isSome_iff_exists.1 (unify?_isSome_iff.2 htu)
    -- the two first types are replaced by what they unify to
    have hws : (w :: ts).Pairwise Meets :=
      List.pairwise_cons.2 ⟨fun c hc => (hts c hc).unify? hw (hus c hc), hpairs⟩
    obtain ⟨v, hv⟩ := ih w hws
    obtain ⟨hwv, hts⟩ := List.forall_mem_cons.1 hv
    obtain ⟨htv, huv⟩ := (isJoin_unify? t u v).2 ⟨w, hw, hwv⟩
    exact ⟨v, by simpa using ⟨htv, huv, hts⟩⟩

theorem unifyAll?_isSome_iff_forall (hts : ts ≠ []) :
    (unifyAll? ts).isSome = true ↔ ∀ a ∈ ts, ∀ b ∈ ts, (unify? a b).isSome = true := by
  simp only [unifyAll?_isSome_iff hts, unify?_isSome_iff]
  constructor
  · rintro ⟨v, hv⟩ a ha b hb
    exact ⟨v, hv a ha, hv b hb⟩
  · intro h
    cases ts with
    | nil => exact absurd rfl hts
    | cons t ts => exact exists_bound_of_pairwise t ts (List.pairwise_of_forall_mem_list h)

/-! ## Orders -/

theorem unifyAll?_isSome_perm (h : ts.Perm us) (hts : ts ≠ []) :
    (unifyAll? ts).isSome = true ↔ (unifyAll? us).isSome = true := by
  have hus : us ≠ [] := fun hnil => hts (List.perm_nil.1 (hnil ▸ h))
  simp only [unifyAll?_isSome_iff hts, unifyAll?_isSome_iff hus, h.mem_iff]

/-- What one order gives yields to what another one gives. -/
theorem yields_of_unifyAll?_perm (h : ts.Perm us) (hts : ts ≠ []) (hu : unifyAll? ts = some u)
    (hv : unifyAll? us = some v) : u.Yields v := by
  have hus : us ≠ [] := fun hnil => hts (List.perm_nil.1 (hnil ▸ h))
  have hbound : ∀ t ∈ us, t.Yields v := (forall_yields_iff_unifyAll? hus v).2 ⟨v, hv, .same v⟩
  obtain ⟨u', hu', hyields⟩ :=
    (forall_yields_iff_unifyAll? hts v).1 fun t ht => hbound t (h.mem_iff.1 ht)
  rw [hu] at hu'
  obtain rfl := Option.some.inj hu'
  exact hyields

/-- Whether types unify depends on every two of them, so it does not depend on their order. They
unify to the least type that all of them yield to, which does not depend on the order either if no
variable is left in it. -/
theorem unifyAll?_order_irrelevant (ts : List Ty) (hts : ts ≠ []) :
    ((unifyAll? ts).isSome = true ↔ ∀ a ∈ ts, ∀ b ∈ ts, (unify? a b).isSome = true) ∧
      (∀ v, (∀ t ∈ ts, t.Yields v) ↔ ∃ u, unifyAll? ts = some u ∧ u.Yields v) ∧
      ∀ us, ts.Perm us →
        ((unifyAll? ts).isSome = true ↔ (unifyAll? us).isSome = true) ∧
          ∀ u, unifyAll? ts = some u → u.hasVars = false → unifyAll? us = some u := by
  refine ⟨unifyAll?_isSome_iff_forall hts, forall_yields_iff_unifyAll? hts, fun us h => ?_⟩
  refine ⟨unifyAll?_isSome_perm h hts, fun u hu hvars => ?_⟩
  obtain ⟨v, hv⟩ := Option.isSome_iff_exists.1 ((unifyAll?_isSome_perm h hts).1 (by simp [hu]))
  have hyields : u.Yields v := yields_of_unifyAll?_perm h hts hu hv
  rw [hv, hyields.eq_of_not_hasVars hvars]

/-- `Pair<T, u8>`, `Pair<vector<T>, U>` and `Pair<vector<bool>, T>`, from both ends. The variable `T`
is laid over three different types, one of which has `T` in it. -/
theorem unifyAll?_order_irrelevant_pairs :
    let pair (a b : Ty) : Ty := .generic (.full "0x1" "m" "Pair") [a, b]
    let x := pair (.var "T" ∅) (.prim .u8)
    let y := pair (.vector (.var "T" ∅)) (.var "U" ∅)
    let z := pair (.vector (.prim .bool)) (.var "T" ∅)
    (unify? x z).isSome = true ∧
      unifyAll? [x, y, z] = some (pair (.vector (.prim .bool)) (.prim .u8)) ∧
      unifyAll? [z, y, x] = some (pair (.vector (.prim .bool)) (.prim .u8)) := by
  intro pair x y z
  have hxyz : unifyAll? [x, y, z] = some (pair (.vector (.prim .bool)) (.prim .u8)) := by decide
  obtain ⟨hpairs, -, horders⟩ := unifyAll?_order_irrelevant [x, y, z] (by simp)
  refine ⟨hpairs.1 (by simp [hxyz]) x (by simp) z (by simp), hxyz, ?_⟩
  exact (horders [z, y, x] (by decide)).2 _ hxyz (by decide)

/-- A variable that is left depends on the order. -/
example : unifyAll? [.var "T" ∅, .var "U" ∅] = some (.var "U" ∅) ∧
    unifyAll? [.var "U" ∅, .var "T" ∅] = some (.var "T" ∅) := by
  decide

end Ty

end MoveTyping
