import MoveTyping.Ty.Unify
import MoveTyping.Proofs.Ty.Overlay

/-!
# Canonical types

Some types can be spelled by more than one tree: the unit as an empty tuple, any type as a tuple of
itself alone, the library's string as a struct, a struct without arguments as a generic type. A tree
is canonical if none of these stands anywhere in it. Canonical trees that spell the same type are
equal, so a comparison of trees is a comparison of types.

Everything that builds a type from canonical ones gives a canonical one: the constructors that
choose the spelling, the projections, substitution, matching and unification.

## Main definitions

* `Ty.Canonical` — nothing in the type has another spelling.
* `Ty.Alike` — the two trees spell the same type.

## Main results

* `Ty.Canonical.alike_iff` — canonical types that are alike are equal.
-/

namespace MoveTyping

namespace Ty

variable {t u : Ty} {ts elems args params : List Ty} {base name : QName}

/-- Induction over the types within a type. -/
@[elab_as_elim]
theorem ind {motive : Ty → Prop} (prim : ∀ kind, motive (.prim kind))
    (named : ∀ name, motive (.named name))
    (generic : ∀ base args, (∀ t ∈ args, motive t) → motive (.generic base args))
    (ref : ∀ inner mutable, motive inner → motive (.ref inner mutable))
    (tuple : ∀ elems, (∀ t ∈ elems, motive t) → motive (.tuple elems))
    (var : ∀ name bounds, motive (.var name bounds))
    (func : ∀ params ret, (∀ t ∈ params, motive t) → motive ret → motive (.func params ret))
    (unknown : motive .unknown) (t : Ty) : motive t :=
  @Ty.rec motive (fun ts => ∀ t ∈ ts, motive t) prim named generic ref tuple var func unknown
    (fun _ h => nomatch h) (fun _ _ ht hts _ h => (List.mem_cons.1 h).elim (· ▸ ht) (hts _)) t

theorem mem_partsOf : u ∈ parts.partsOf ts ↔ ∃ t ∈ ts, u ∈ t.parts := by
  induction ts with
  | nil => simp [parts.partsOf]
  | cons t ts ih => simp [parts.partsOf, ih]

/-- The parts of a part are parts of the type. -/
theorem parts_subset_of_mem (h : u ∈ t.parts) : u.parts ⊆ t.parts := by
  induction t using Ty.ind with
  | generic base args ih =>
    rcases List.mem_cons.1 h with rfl | h
    · exact List.Subset.refl _
    · obtain ⟨arg, harg, hu⟩ := mem_partsOf.1 h
      exact fun p hp => List.mem_cons_of_mem _ (mem_partsOf.2 ⟨arg, harg, ih arg harg hu hp⟩)
  | tuple elems ih =>
    rcases List.mem_cons.1 h with rfl | h
    · exact List.Subset.refl _
    · obtain ⟨elem, helem, hu⟩ := mem_partsOf.1 h
      exact fun p hp => List.mem_cons_of_mem _ (mem_partsOf.2 ⟨elem, helem, ih elem helem hu hp⟩)
  | ref inner mutable ih =>
    rcases List.mem_cons.1 h with rfl | h
    · exact List.Subset.refl _
    · exact fun p hp => List.mem_cons_of_mem _ (ih h hp)
  | func params ret ihparams ihret =>
    rcases List.mem_cons.1 h with rfl | h
    · exact List.Subset.refl _
    · intro p hp
      refine List.mem_cons_of_mem _ (List.mem_append.2 ?_)
      rcases List.mem_append.1 h with h | h
      · obtain ⟨param, hparam, hu⟩ := mem_partsOf.1 h
        exact .inl (mem_partsOf.2 ⟨param, hparam, ihparams param hparam hu hp⟩)
      · exact .inr (ihret h hp)
  | _ =>
    obtain rfl := List.mem_singleton.1 h
    exact List.Subset.refl _

/-! ## Canonical types -/

/-- The outermost part of the type has no other spelling. The keyword `vector` may stand without
arguments. -/
def WellSpelled : Ty → Prop
  | tuple elems => 2 ≤ elems.length
  | generic base args => args = [] → base = .vector
  | named name => name ≠ .stdString
  | _ => True

instance : DecidablePred WellSpelled
  | tuple elems => inferInstanceAs (Decidable (2 ≤ elems.length))
  | generic base args => inferInstanceAs (Decidable (args = [] → base = .vector))
  | named name => inferInstanceAs (Decidable (name ≠ .stdString))
  | prim _ | ref _ _ | var _ _ | func _ _ | unknown => .isTrue trivial

/-- Nothing in the type has another spelling. -/
def Canonical (t : Ty) : Prop := ∀ p ∈ t.parts, p.WellSpelled

instance (t : Ty) : Decidable t.Canonical :=
  inferInstanceAs (Decidable (∀ p ∈ t.parts, p.WellSpelled))

/-- The parts of some types are well spelled if the types are canonical. -/
theorem forall_mem_partsOf :
    (∀ p ∈ parts.partsOf ts, p.WellSpelled) ↔ ∀ t ∈ ts, t.Canonical := by
  simp only [mem_partsOf, Canonical]
  exact ⟨fun h t ht p hp => h p ⟨t, ht, hp⟩, fun h p ⟨t, ht, hp⟩ => h t ht p hp⟩

@[simp] theorem canonical_prim (kind : Prim) : (prim kind).Canonical := by
  simp [Canonical, parts, WellSpelled]

@[simp] theorem canonical_var (name : String) (bounds : AbilitySet) :
    (var name bounds).Canonical := by
  simp [Canonical, parts, WellSpelled]

@[simp] theorem canonical_unknown : unknown.Canonical := by
  simp [Canonical, parts, WellSpelled]

@[simp] theorem canonical_named : (named name).Canonical ↔ name ≠ .stdString := by
  simp [Canonical, parts, WellSpelled]

@[simp] theorem canonical_generic : (generic base args).Canonical ↔
    (args = [] → base = .vector) ∧ ∀ t ∈ args, t.Canonical := by
  rw [Canonical, parts, List.forall_mem_cons, forall_mem_partsOf]
  rfl

@[simp] theorem canonical_tuple :
    (tuple elems).Canonical ↔ 2 ≤ elems.length ∧ ∀ t ∈ elems, t.Canonical := by
  rw [Canonical, parts, List.forall_mem_cons, forall_mem_partsOf]
  rfl

@[simp] theorem canonical_ref {mutable : Bool} : (ref t mutable).Canonical ↔ t.Canonical := by
  rw [Canonical, parts, List.forall_mem_cons]
  exact ⟨fun h => h.2, fun h => ⟨trivial, h⟩⟩

@[simp] theorem canonical_func :
    (func params t).Canonical ↔ (∀ p ∈ params, p.Canonical) ∧ t.Canonical := by
  rw [Canonical, parts, List.forall_mem_cons, List.forall_mem_append, forall_mem_partsOf]
  exact ⟨fun h => h.2, fun h => ⟨trivial, h⟩⟩

/-! ## Constructors that choose the spelling -/

theorem canonical_unit : unit.Canonical := canonical_prim .unit

@[simp] theorem canonical_vector : (vector t).Canonical ↔ t.Canonical := by
  simp [vector]

theorem canonical_ofName (base : QName) (h : ∀ t ∈ args, t.Canonical) :
    (ofName base args).Canonical := by
  unfold ofName
  split
  · split
    · exact canonical_prim .string
    · next hne => exact canonical_named.2 hne
  · next hne =>
    refine canonical_generic.2 ⟨fun hnil => ?_, h⟩
    simp [hnil] at hne

theorem canonical_ofElems (h : ∀ t ∈ elems, t.Canonical) : (ofElems elems).Canonical := by
  unfold ofElems
  split
  · exact canonical_unit
  · exact h _ List.mem_cons_self
  · next hnil hsingle =>
    refine canonical_tuple.2 ⟨?_, h⟩
    rcases elems with _ | ⟨t, _ | ⟨u, ts⟩⟩
    · exact absurd rfl hnil
    · exact absurd rfl (hsingle t)
    · simp

/-! ## Projections -/

theorem Canonical.stripRefs (h : t.Canonical) : t.stripRefs.Canonical := by
  fun_induction Ty.stripRefs t with
  | case1 inner mutable ih => exact ih (canonical_ref.1 h)
  | case2 => exact h

theorem Canonical.element? (h : t.Canonical) (hu : t.element? = some u) : u.Canonical := by
  unfold Ty.element? at hu
  have hstripped := h.stripRefs
  split at hu
  · next base args heq =>
    rw [heq, canonical_generic] at hstripped
    split at hu
    · exact hstripped.2 u (List.mem_of_head? hu)
    · cases hu
  · cases hu

theorem Canonical.nominal? (h : t.Canonical) (hn : t.nominal? = some (name, args)) :
    ∀ u ∈ args, u.Canonical := by
  unfold Ty.nominal? at hn
  have hstripped := h.stripRefs
  split at hn
  · cases hn
    simp
  · next heq =>
    cases hn
    rw [heq, canonical_generic] at hstripped
    exact hstripped.2
  · cases hn

/-! ## Unification -/

/-- Unifying two lists unifies elements of one with elements of the other, and no element is
lost. -/
theorem of_unifyList? {as bs ts : List Ty} (h : unify?.unifyList? as bs = some ts) :
    ts.length = as.length ∧ ∀ t ∈ ts, ∃ a ∈ as, ∃ b ∈ bs, unify? a b = some t := by
  induction as generalizing bs ts with
  | nil =>
    cases bs with
    | nil =>
      obtain rfl := Option.some.inj h
      simp
    | cons b bs => cases h
  | cons a as ih =>
    cases bs with
    | nil => cases h
    | cons b bs =>
      simp only [unify?.unifyList?, Option.bind_eq_bind, Option.bind_eq_some_iff] at h
      obtain ⟨t, ht, rest, hrest, h⟩ := h
      obtain rfl := Option.some.inj h
      obtain ⟨hlength, hmem⟩ := ih hrest
      refine ⟨by simp [hlength], fun u hu => ?_⟩
      rcases List.mem_cons.1 hu with rfl | hu
      · exact ⟨a, List.mem_cons_self, b, List.mem_cons_self, ht⟩
      · obtain ⟨a', ha', b', hb', hab⟩ := hmem u hu
        exact ⟨a', List.mem_cons_of_mem a ha', b', List.mem_cons_of_mem b hb', hab⟩

/-- Unification gives one of the two types, or unifies the arguments of one generic type. -/
theorem unify?_cases {a b : Ty} (h : unify? a b = some t) :
    t = a ∨ t = b ∨ ∃ base as bs ts, a = generic base as ∧ b = generic base bs ∧
      t = generic base ts ∧ unify?.unifyList? as bs = some ts := by
  rw [unify?.eq_def] at h
  split at h
  · exact .inl (Option.some.inj h).symm
  · split at h
    · exact .inr (.inl (Option.some.inj h).symm)
    · exact .inl (Option.some.inj h).symm
    · next base as base' bs _ =>
      split at h
      · next hbase =>
        obtain ⟨ts, hts, rfl⟩ := Option.map_eq_some_iff.1 h
        exact .inr (.inr ⟨base, as, bs, ts, rfl, hbase ▸ rfl, rfl, hts⟩)
      · cases h
    · cases h

theorem Canonical.unify? {a b : Ty} (ha : a.Canonical) (hb : b.Canonical)
    (h : Ty.unify? a b = some t) : t.Canonical := by
  induction a using Ty.ind generalizing b t with
  | generic base args ih =>
    obtain rfl | rfl | ⟨base', as, bs, ts, heq, rfl, rfl, hts⟩ := unify?_cases h
    · exact ha
    · exact hb
    · -- as many arguments come out as go in, so none are lost on a base that needs them
      obtain ⟨rfl, rfl⟩ := Ty.generic.inj heq
      obtain ⟨hbase, has⟩ := canonical_generic.1 ha
      obtain ⟨hlength, hmem⟩ := of_unifyList? hts
      refine canonical_generic.2 ⟨fun hnil => hbase ?_, fun t ht => ?_⟩
      · simpa [hnil, eq_comm] using hlength
      · obtain ⟨a, ha, b, hb', hab⟩ := hmem t ht
        exact ih a ha (has a ha) ((canonical_generic.1 hb).2 b hb') hab
  | _ =>
    obtain rfl | rfl | ⟨_, _, _, _, heq, -⟩ := unify?_cases h
    · exact ha
    · exact hb
    · cases heq

theorem canonical_of_unifyAll? (hts : ∀ u ∈ ts, u.Canonical) (h : unifyAll? ts = some t) :
    t.Canonical := by
  cases ts with
  | nil => cases h
  | cons first ts =>
    rw [unifyAll?] at h
    induction ts generalizing first with
    | nil =>
      obtain rfl := Option.some.inj h
      exact hts first List.mem_cons_self
    | cons u ts ih =>
      simp only [List.forall_mem_cons] at hts
      obtain ⟨hfirst, hu, hts⟩ := hts
      obtain ⟨unified, hunified, h⟩ := Option.bind_eq_some_iff.1 h
      exact ih unified (List.forall_mem_cons.2 ⟨hfirst.unify? hu hunified, hts⟩) h

/-! ## Spellings of one type -/

/-- The other spellings of units, elements, strings and structs. -/
inductive Respells : Ty → Ty → Prop
  | unit : Respells (tuple []) unit
  | single (t : Ty) : Respells (tuple [t]) t
  | string : Respells (named .stdString) (prim .string)
  | bare {base : QName} : base ≠ .vector → Respells (generic base []) (named base)

/-- The trees spell the same type: one becomes the other by respelling parts of it. -/
inductive Alike : Ty → Ty → Prop
  | refl (t : Ty) : Alike t t
  | symm {t u : Ty} : Alike t u → Alike u t
  | trans {t u v : Ty} : Alike t u → Alike u v → Alike t v
  | respell {t u : Ty} : Respells t u → Alike t u
  | ref {t u : Ty} (mutable : Bool) : Alike t u → Alike (ref t mutable) (ref u mutable)
  | arg {t u : Ty} (base : QName) (before after : List Ty) : Alike t u →
      Alike (generic base (before ++ t :: after)) (generic base (before ++ u :: after))
  | elem {t u : Ty} (before after : List Ty) : Alike t u →
      Alike (tuple (before ++ t :: after)) (tuple (before ++ u :: after))
  | param {t u : Ty} (before after : List Ty) (ret : Ty) : Alike t u →
      Alike (func (before ++ t :: after) ret) (func (before ++ u :: after) ret)
  | ret {t u : Ty} (params : List Ty) : Alike t u → Alike (func params t) (func params u)

/-- The canonical spelling of a type. -/
def normal : Ty → Ty
  | prim kind => prim kind
  | named name => ofName name []
  | generic base args =>
    if base = .vector then generic base (normalList args) else ofName base (normalList args)
  | ref inner mutable => ref inner.normal mutable
  | tuple elems => ofElems (normalList elems)
  | var name bounds => var name bounds
  | func params ret => func (normalList params) ret.normal
  | unknown => unknown
where
  normalList : List Ty → List Ty
    | [] => []
    | t :: ts => t.normal :: normalList ts

theorem normalList_eq_map (ts : List Ty) : normal.normalList ts = ts.map normal := by
  induction ts with
  | nil => rfl
  | cons t ts ih => rw [normal.normalList, ih, List.map_cons]

theorem Respells.normal_eq (h : Respells t u) : t.normal = u.normal := by
  cases h with
  | unit => rfl
  | single => rfl
  | string => rfl
  | bare hbase => simp [normal, normal.normalList, hbase]

theorem Alike.normal_eq (h : Alike t u) : t.normal = u.normal := by
  induction h with
  | refl => rfl
  | symm _ ih => exact ih.symm
  | trans _ _ ih ih' => exact ih.trans ih'
  | respell h => exact h.normal_eq
  | _ => simp only [normal, normalList_eq_map, List.map_append, List.map_cons, *]

theorem Canonical.normal_eq (h : t.Canonical) : t.normal = t := by
  have hmap : ∀ {ts : List Ty}, (∀ t ∈ ts, t.Canonical → t.normal = t) →
      (∀ t ∈ ts, t.Canonical) → normal.normalList ts = ts := by
    intro ts ih hts
    rw [normalList_eq_map]
    exact List.map_congr_left (fun t ht => ih t ht (hts t ht)) |>.trans (List.map_id ts)
  induction t using Ty.ind with
  | named name =>
    have hname : name ≠ .stdString := canonical_named.1 h
    simp [normal, ofName, hname]
  | generic base args ih =>
    obtain ⟨hbase, hargs⟩ := canonical_generic.1 h
    rw [normal, hmap ih hargs]
    split
    · rfl
    · next hne =>
      have hnil : args ≠ [] := fun hnil => hne (hbase hnil)
      simp [ofName, hnil]
  | tuple elems ih =>
    obtain ⟨hlength, helems⟩ := canonical_tuple.1 h
    rw [normal, hmap ih helems]
    rcases elems with _ | ⟨t, _ | ⟨u, ts⟩⟩
    · simp at hlength
    · simp at hlength
    · rfl
  | ref inner mutable ih => rw [normal, ih (canonical_ref.1 h)]
  | func params ret ihparams ihret =>
    obtain ⟨hparams, hret⟩ := canonical_func.1 h
    rw [normal, hmap ihparams hparams, ihret hret]
  | prim kind => rfl
  | var name bounds => rfl
  | unknown => rfl

/-- Canonical types that are alike are equal. -/
theorem Canonical.alike_iff (ht : t.Canonical) (hu : u.Canonical) : t.Alike u ↔ t = u := by
  constructor
  · intro h
    calc
      t = t.normal := ht.normal_eq.symm
      _ = u.normal := h.normal_eq
      _ = u := hu.normal_eq
  · rintro rfl
    exact .refl t

end Ty

namespace Subst

variable {s : Subst} {t : Ty}

/-! ## Substitution and matching -/

/-- Every bound type is canonical. -/
def Canonical (s : Subst) : Prop := ∀ ⦃name t⦄, s.get? name = some t → t.Canonical

theorem canonical_empty : (∅ : Subst).Canonical := fun _ _ h => nomatch h

theorem canonical_ofArgs (params : List String) {args : List Ty} (h : ∀ t ∈ args, t.Canonical) :
    (ofArgs params args).Canonical := by
  intro name t ht
  rw [get?_ofArgs, Option.map_eq_some_iff] at ht
  obtain ⟨p, hp, rfl⟩ := ht
  exact h p.2 (List.of_mem_zip (List.mem_filter.1 (List.mem_of_getLast? hp)).1).2

theorem replaceList_eq_map (s : Subst) (ts : List Ty) :
    replace.replaceList s ts = ts.map s.replace := by
  induction ts with
  | nil => rfl
  | cons t ts ih => rw [replace.replaceList, ih, List.map_cons]

theorem Canonical.replace (hs : s.Canonical) (h : t.Canonical) : (s.replace t).Canonical := by
  induction t using Ty.ind with
  | var name bounds =>
    rw [Subst.replace]
    cases hname : s.get? name with
    | none => exact Ty.canonical_var name bounds
    | some u => exact hs hname
  | generic base args ih =>
    obtain ⟨hbase, hargs⟩ := Ty.canonical_generic.1 h
    simp only [Subst.replace, replaceList_eq_map, Ty.canonical_generic, List.map_eq_nil_iff,
      List.forall_mem_map]
    exact ⟨hbase, fun t ht => ih t ht (hargs t ht)⟩
  | ref inner mutable ih =>
    simpa only [Subst.replace, Ty.canonical_ref] using ih (Ty.canonical_ref.1 h)
  | tuple elems ih =>
    obtain ⟨hlength, helems⟩ := Ty.canonical_tuple.1 h
    simp only [Subst.replace, replaceList_eq_map, Ty.canonical_tuple, List.length_map,
      List.forall_mem_map]
    exact ⟨hlength, fun t ht => ih t ht (helems t ht)⟩
  | func params ret ihparams ihret =>
    obtain ⟨hparams, hret⟩ := Ty.canonical_func.1 h
    simp only [Subst.replace, replaceList_eq_map, Ty.canonical_func, List.forall_mem_map]
    exact ⟨fun t ht => ihparams t ht (hparams t ht), ihret hret⟩
  | prim kind => exact h
  | named name => exact h
  | unknown => exact h

theorem Canonical.apply (hs : s.Canonical) (h : t.Canonical) : (s.apply t).Canonical := by
  rw [apply_eq_replace]
  exact hs.replace h

theorem Canonical.bind (hs : s.Canonical) (name : String) (h : t.Canonical) :
    (s.bind name t).Canonical := by
  intro x u hx
  rw [get?_bind, Option.or_eq_some_iff] at hx
  rcases hx with hx | ⟨-, hx⟩
  · exact hs hx
  · split at hx
    · obtain rfl := Option.some.inj hx
      exact h
    · cases hx

/-- Matching binds parts of the actual type. -/
theorem Canonical.bindMatching (params : List String) (hs : s.Canonical) (declared : Ty)
    {actual : Ty} (h : actual.Canonical) : (s.bindMatching params declared actual).Canonical := by
  refine bindMatching_induction hs fun s x u _ hlies hs => hs.bind x fun p hp => ?_
  exact h p (Ty.parts_subset_of_mem hlies.mem_parts hp)

end Subst

end MoveTyping
