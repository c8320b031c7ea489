import MoveTyping.Proofs.Infer.Abilities
import MoveTyping.Proofs.Ty.Canonical

/-!
# Abilities of instances

A tuple has an ability if all of its elements do, and a struct or vector keeps one if its arguments
have what is asked of them; no rule asks for the absence of an ability. A variable has the abilities
of its bounds. So a type loses none of its abilities if each variable is replaced by a type that has
those of its bounds.

The type arguments of a call are bound to the type parameters of the callee and to nothing else.

## Main definitions

* `Ty.Has` — the abilities of a type by rules.

## Main results

* `Ty.has_abilities_iff` — the computed abilities are those that the rules give.
* `Ty.abilities_subset_replace`, `Ty.abilities_subset_apply` — an instance has the abilities of the
  type.
* `Callable.mem_paramNames_of_get?` — what the type arguments of a call bind.
-/

namespace MoveTyping

namespace Ty

variable {known : QName → Option Record} {a : Ability} {t : Ty} {ts : List Ty}

/-! ## Abilities by rules -/

/-- Why a type has an ability. -/
inductive Has (known : QName → Option Record) : Ability → Ty → Prop
  | prim {a : Ability} {kind : Prim} : kind.abilities.has a = true → Has known a (prim kind)
  | ref {a : Ability} {inner : Ty} {mutable : Bool} : AbilitySet.reference.has a = true →
      Has known a (ref inner mutable)
  | tuple {a : Ability} {elems : List Ty} : (∀ t ∈ elems, Has known a t) →
      Has known a (tuple elems)
  | var {a : Ability} {name : String} {bounds : AbilitySet} : bounds.has a = true →
      Has known a (var name bounds)
  | unknown (a : Ability) : Has known a unknown
  | named {a : Ability} {name : QName} {info : Record} : known name = some info →
      info.abilities.has a = true → Has known a (named name)
  | vector {a : Ability} {args : List Ty} : AbilitySet.primitive.has a = true →
      (∀ t ∈ args, Has known a t) → Has known a (generic .vector args)
  /-- Every argument is asked, unless it is in the place of a phantom parameter. -/
  | struct {a : Ability} {base : QName} {info : Record} {args : List Ty} : base ≠ .vector →
      known base = some info → info.abilities.has a = true →
      (∀ (i : Nat) (t : Ty), args[i]? = some t → info.isPhantom i = false →
        Has known a.ofArguments t) →
      Has known a (generic base args)

theorem has_commonAbilities_iff :
    (commonAbilities known ts).has a = true ↔ ∀ t ∈ ts, (t.abilities known).has a = true := by
  induction ts with
  | nil => simp [show commonAbilities known [] = .all from rfl]
  | cons t ts ih => simp [commonAbilities_cons, ih]

theorem all_argAbilities_iff (info : Record) (index : Nat) :
    (argAbilities known info index ts).all (·.has a) = true ↔
      ∀ (i : Nat) (t : Ty), ts[i]? = some t → info.isPhantom (index + i) = false →
        (t.abilities known).has a = true := by
  induction ts generalizing index with
  | nil => simp [show argAbilities known info index [] = [] from rfl]
  | cons t ts ih =>
    have htail := ih (index + 1)
    simp only [Nat.add_assoc, Nat.add_comm 1] at htail
    rw [argAbilities_cons, ← Nat.and_forall_add_one]
    cases info.isPhantom index with
    | true => simp [htail]
    | false => simp [← htail]

theorem has_abilities_generic_iff {base : QName} {args : List Ty}
    (ih : ∀ t ∈ args, ∀ {a}, (t.abilities known).has a = true ↔ t.Has known a) :
    ((generic base args).abilities known).has a = true ↔ (generic base args).Has known a := by
  rw [abilities_generic]
  by_cases hbase : base = .vector
  · subst hbase
    rw [if_pos rfl, AbilitySet.has_inter, Bool.and_eq_true, has_commonAbilities_iff]
    constructor
    · exact fun h => .vector h.1 fun t ht => (ih t ht).1 (h.2 t ht)
    · intro h
      cases h with
      | vector ha hargs => exact ⟨ha, fun t ht => (ih t ht).2 (hargs t ht)⟩
      | struct hne => exact absurd rfl hne
  rw [if_neg hbase]
  constructor
  · intro h
    cases hinfo : known base with
    | none => simp [hinfo] at h
    | some info =>
      simp only [hinfo, Option.elim_some, AbilitySet.has_filter, Bool.and_eq_true,
        all_argAbilities_iff, Nat.zero_add] at h
      refine .struct hbase hinfo h.1 fun i t hi hphantom => ?_
      exact (ih t (List.mem_of_getElem? hi)).1 (h.2 i t hi hphantom)
  · intro h
    cases h with
    | vector => exact absurd rfl hbase
    | struct _ hinfo ha hargs =>
      simp only [hinfo, Option.elim_some, AbilitySet.has_filter, Bool.and_eq_true,
        all_argAbilities_iff, Nat.zero_add]
      refine ⟨ha, fun i t hi hphantom => ?_⟩
      exact (ih t (List.mem_of_getElem? hi)).2 (hargs i t hi hphantom)

/-- The computed abilities are those that the rules give. -/
theorem has_abilities_iff : (t.abilities known).has a = true ↔ t.Has known a := by
  induction t using Ty.ind generalizing a with
  | prim kind => exact ⟨.prim, fun h => by cases h; assumption⟩
  | named name =>
    change ((known name).elim ∅ Record.abilities).has a = true ↔ _
    constructor
    · intro h
      cases hinfo : known name with
      | none => simp [hinfo] at h
      | some info => exact .named hinfo (by simpa [hinfo] using h)
    · intro h
      cases h with
      | named hinfo ha => simpa [hinfo] using ha
  | generic base args ih => exact has_abilities_generic_iff ih
  | ref inner mutable _ => exact ⟨.ref, fun h => by cases h; assumption⟩
  | tuple elems ih =>
    change (commonAbilities known elems).has a = true ↔ _
    rw [has_commonAbilities_iff]
    constructor
    · exact fun h => .tuple fun t ht => (ih t ht).1 (h t ht)
    · intro h
      cases h with
      | tuple helems => exact fun t ht => (ih t ht).2 (helems t ht)
  | var name bounds => exact ⟨.var, fun h => by cases h; assumption⟩
  | func params ret _ _ =>
    constructor
    · intro h
      exact absurd h (by simp [show (func params ret).abilities known = ∅ from rfl])
    · intro h
      cases h
  | unknown => exact ⟨fun _ => .unknown a, fun _ => AbilitySet.has_all a⟩

/-! ## Instances -/

theorem Has.replace {s : Subst} (ht : t.Has known a)
    (h : ∀ x bounds u, Ty.var x bounds ∈ t.parts → s.get? x = some u →
      bounds ⊆ u.abilities known) : (s.replace t).Has known a := by
  induction ht with
  | prim ha => exact .prim ha
  | ref ha => exact .ref ha
  | unknown a => exact .unknown a
  | named hinfo ha => exact .named hinfo ha
  | @var a x bounds ha =>
    rw [Subst.replace]
    cases hx : s.get? x with
    | none => exact .var ha
    | some u => exact has_abilities_iff.1 (h x bounds u (mem_parts_self _) hx a ha)
  | tuple _ ih =>
    rw [Subst.replace, Subst.replaceList_eq_map]
    refine .tuple (List.forall_mem_map.2 fun t ht => ih t ht fun x bounds u hx => ?_)
    exact h x bounds u (List.mem_cons_of_mem _ (parts_subset_partsOf ht hx))
  | vector ha _ ih =>
    rw [Subst.replace, Subst.replaceList_eq_map]
    refine .vector ha (List.forall_mem_map.2 fun t ht => ih t ht fun x bounds u hx => ?_)
    exact h x bounds u (List.mem_cons_of_mem _ (parts_subset_partsOf ht hx))
  | struct hbase hinfo ha _ ih =>
    rw [Subst.replace, Subst.replaceList_eq_map]
    refine .struct hbase hinfo ha fun i t' hi hphantom => ?_
    obtain ⟨t, ht, rfl⟩ := Option.map_eq_some_iff.1 (List.getElem?_map ▸ hi)
    refine ih i t ht hphantom fun x bounds u hx => h x bounds u (List.mem_cons_of_mem _ ?_)
    exact parts_subset_partsOf (List.mem_of_getElem? ht) hx

/-- An instance of a type has the abilities of the type, if each variable that is replaced has its
bounds from the type in its place. -/
theorem abilities_subset_replace {s : Subst} {t : Ty}
    (h : ∀ x bounds u, var x bounds ∈ t.parts → s.get? x = some u → bounds ⊆ u.abilities known) :
    t.abilities known ⊆ (s.replace t).abilities known := by
  intro a ha
  exact has_abilities_iff.2 ((has_abilities_iff.1 ha).replace h)

/-- Abilities follow their rules, and applying a substitution loses none of them, if each variable
that it binds, wherever the variable stands in the type, is bound to a type with the abilities of
its bounds. -/
theorem abilities_subset_apply (known : QName → Option Record) (s : Subst) (t : Ty)
    (h : ∀ x bounds u, var x bounds ∈ t.parts → s.get? x = some u → bounds ⊆ u.abilities known) :
    t.abilities known ⊆ (s.apply t).abilities known ∧
      ∀ (u : Ty) (a : Ability), (u.abilities known).has a = true ↔ u.Has known a := by
  refine ⟨?_, fun _ _ => has_abilities_iff⟩
  rw [Subst.apply_eq_replace]
  exact abilities_subset_replace h

/-- `struct Vault<phantom T, U> has store, key`. -/
def vault : Record where
  name := .full "0x5" "m" "Vault"
  abilities := .ofList [.store, .key]
  typeParams := [⟨"T", ∅, true⟩, ⟨"U", ∅, false⟩]
  fields := []
  isEnum := false
  supertypes := []

/-- `Vault<T, vector<U>, V>` has one argument too many. A struct without a record takes the place of
the phantom `T`, and a vault that of `U`. -/
theorem abilities_subset_apply_vault :
    let known : QName → Option Record := fun name => if name = vault.name then some vault else none
    let storable : AbilitySet := .ofList [.store]
    let t : Ty := .generic vault.name [.var "T" ∅, .vector (.var "U" storable), .var "V" storable]
    let inner : Ty := .generic vault.name [.unknown, .prim .u8]
    let s : Subst := .ofArgs ["T", "U", "V"] [.named (.full "0x5" "m" "Lost"), inner, .prim .bool]
    t.abilities known = .ofList [.store, .key] ∧
      AbilitySet.ofList [.store, .key] ⊆ (s.apply t).abilities known := by
  intro known storable t inner s
  have ht : t.abilities known = .ofList [.store, .key] := by decide
  have hbound : s.get? "T" = some (.named (.full "0x5" "m" "Lost")) ∧ s.get? "U" = some inner ∧
      s.get? "V" = some (.prim .bool) := by decide
  refine ⟨ht, ht ▸ (abilities_subset_apply known s t fun x bounds u hx hu => ?_).1⟩
  have hvar : x = "T" ∧ bounds = ∅ ∨ x = "U" ∧ bounds = storable ∨ x = "V" ∧ bounds = storable := by
    simpa [t, parts, parts.partsOf, vector] using hx
  rcases hvar with ⟨rfl, rfl⟩ | ⟨rfl, rfl⟩ | ⟨rfl, rfl⟩
  · cases hbound.1.symm.trans hu
    exact AbilitySet.covers_iff.1 (by decide)
  · cases hbound.2.1.symm.trans hu
    exact AbilitySet.covers_iff.1 (by decide)
  · cases hbound.2.2.symm.trans hu
    exact AbilitySet.covers_iff.1 (by decide)

end Ty

/-! ## What a call binds -/

/-- The type arguments of a call are bound to type parameters only. -/
theorem Callable.mem_paramNames_of_get? {c : Callable} {explicit args : List Ty} {x : String}
    {u : Ty} (h : (c.arguments explicit args).get? x = some u) : x ∈ c.paramNames := by
  by_contra hx
  unfold arguments at h
  split at h
  next =>
    have hmatched : ∀ (ps : List (Ty × Ty)) (s : Subst),
        (ps.foldl (fun s p => s.bindMatching c.paramNames p.1 p.2) s).get? x = s.get? x := by
      intro ps
      induction ps with
      | nil => exact fun _ => rfl
      | cons p ps ih =>
        intro s
        rw [List.foldl_cons, ih, Subst.get?_bindMatching_of_notMem hx]
    rw [hmatched, Table.get?_empty] at h
    cases h
  next =>
    rw [Subst.get?_ofArgs_of_notMem hx] at h
    cases h

end MoveTyping
