import MoveTyping.Catalog.Basic
import MoveTyping.Proofs.Catalog.Load

/-!
# Matching undoes substitution

A callee has its type arguments written at the call, or they are found by laying its parameters over
the arguments. Where the arguments are the parameters with some types in the place of the type
parameters, matching finds these types again: it walks through every constructor, and all that it
meets of one type parameter is the same type, so it does not matter that the first binding stays.

The types may mention variables with the names of the type parameters themselves. They are replaced
all at once and bound as they stand, so nothing is captured.

## Main definitions

* `Ty.vars` — the names of the variables in a type.

## Main results

* `Subst.get?_bindMatching_replace` — what is bound after matching a type with its own instance.
* `Callable.result_explicit_eq_matched` — both ways to find the type arguments of a call agree.
-/

namespace MoveTyping

/-- The names of the variables in a type. -/
def Ty.vars : Ty → List String
  | var name _ => [name]
  | generic _ args => varsOf args
  | ref inner _ => inner.vars
  | tuple elems => varsOf elems
  | func params ret => varsOf params ++ ret.vars
  | prim _ | named _ | unknown => []
where
  varsOf : List Ty → List String
    | [] => []
    | t :: ts => t.vars ++ varsOf ts

theorem Ty.mem_varsOf {x : String} {ts : List Ty} :
    x ∈ vars.varsOf ts ↔ ∃ t ∈ ts, x ∈ t.vars := by
  induction ts with
  | nil => simp [vars.varsOf]
  | cons t ts ih => simp [vars.varsOf, ih]

namespace Subst

variable {s s' σ : Subst} {params : List String} {args : List Ty} {name : String}

/-! ## Bindings and what they replace -/

theorem get?_bind (s : Subst) (name x : String) (t : Ty) :
    (s.bind name t).get? x = (s.get? x).or (if x = name then some t else none) := by
  unfold bind
  cases hs : s.get? name with
  | some u =>
    by_cases hx : x = name
    · simp [hx, hs]
    · simp [hx]
  | none =>
    rw [Table.get?_insert]
    by_cases hx : x = name
    · simp [hx, hs]
    · simp [hx]

theorem get?_ofArgs (params : List String) (args : List Ty) (name : String) :
    (ofArgs params args).get? name =
      ((params.zip args).filter (·.1 = name)).getLast?.map Prod.snd := by
  have h := Table.get?_foldl_insert Prod.fst Prod.snd (params.zip args) ∅ name
  rwa [Table.get?_empty, Option.or_none] at h

theorem get?_ofArgs_of_notMem (h : name ∉ params) : (ofArgs params args).get? name = none := by
  have hnone : (params.zip args).filter (·.1 = name) = [] := by
    refine List.filter_eq_nil_iff.2 fun p hp => ?_
    have hmem : p.1 ∈ params := (List.of_mem_zip hp).1
    simpa using ne_of_mem_of_not_mem hmem h
  rw [get?_ofArgs, hnone]
  rfl

/-- A parameter with an argument is bound to one of the arguments. -/
theorem exists_get?_ofArgs (hlength : params.length ≤ args.length) (h : name ∈ params) :
    ∃ t ∈ args, (ofArgs params args).get? name = some t := by
  have hkeys : ((params.zip args).map Prod.fst) = params := List.map_fst_zip hlength
  obtain ⟨p, hp, hname⟩ := List.mem_map.1 (hkeys.symm ▸ h)
  have hne : (params.zip args).filter (·.1 = name) ≠ [] := by
    refine List.ne_nil_of_mem (List.mem_filter.2 ⟨hp, ?_⟩)
    simpa using hname
  refine ⟨_, (List.of_mem_zip (List.mem_filter.1 (List.getLast_mem hne)).1).2, ?_⟩
  rw [get?_ofArgs, List.getLast?_eq_some_getLast hne]
  rfl

mutual

/-- What is replaced in a type depends on the variables of the type. -/
theorem replace_congr : ∀ {t : Ty}, (∀ x ∈ t.vars, s.get? x = s'.get? x) →
    s.replace t = s'.replace t
  | .var x _, h => by simp [replace, h x (by simp [Ty.vars])]
  | .generic base _, h => congrArg (Ty.generic base) (replaceList_congr h)
  | .ref _ mutable, h => congrArg (Ty.ref · mutable) (replace_congr h)
  | .tuple _, h => congrArg Ty.tuple (replaceList_congr h)
  | .func params ret, h => by
    have hparams : replace.replaceList s params = replace.replaceList s' params :=
      replaceList_congr fun x hx => h x (by simp [Ty.vars, hx])
    have hret : s.replace ret = s'.replace ret :=
      replace_congr fun x hx => h x (by simp [Ty.vars, hx])
    simp only [replace, hparams, hret]
  | .prim _, _ => rfl
  | .named _, _ => rfl
  | .unknown, _ => rfl

theorem replaceList_congr : ∀ {ts : List Ty}, (∀ x ∈ Ty.vars.varsOf ts, s.get? x = s'.get? x) →
    replace.replaceList s ts = replace.replaceList s' ts
  | [], _ => rfl
  | t :: ts, h => by
    have ht : s.replace t = s'.replace t :=
      replace_congr fun x hx => h x (by simp [Ty.vars.varsOf, hx])
    have hts : replace.replaceList s ts = replace.replaceList s' ts :=
      replaceList_congr fun x hx => h x (by simp [Ty.vars.varsOf, hx])
    simp only [replace.replaceList, ht, hts]

end

/-! ## Matching with an instance -/

/-- What a substitution says about those of the names that are parameters. -/
def onParams (σ : Subst) (params names : List String) (x : String) : Option Ty :=
  if x ∈ params ∧ x ∈ names then σ.get? x else none

theorem onParams_append (σ : Subst) (params names names' : List String) (x : String) :
    σ.onParams params (names ++ names') x =
      (σ.onParams params names x).or (σ.onParams params names' x) := by
  unfold onParams
  by_cases h : x ∈ names <;> by_cases h' : x ∈ names' <;> by_cases hx : x ∈ params <;>
    simp [h, h', hx]

/-- Every parameter is bound to a type that matching does not pass over. -/
def Known (σ : Subst) (params : List String) : Prop :=
  ∀ x ∈ params, ∃ t, σ.get? x = some t ∧ t ≠ .unknown

theorem known_ofArgs (hlength : params.length ≤ args.length) (hargs : ∀ t ∈ args, t ≠ .unknown) :
    (ofArgs params args).Known params := by
  intro x hx
  obtain ⟨t, ht, hget⟩ := exists_get?_ofArgs hlength hx
  exact ⟨t, hget, hargs t ht⟩

/-- A variable is bound if it is a parameter. -/
theorem get?_bindMatching_var (hσ : σ.Known params) (s : Subst) (name : String)
    (bounds : AbilitySet) (x : String) :
    (s.bindMatching params (.var name bounds) (σ.replace (.var name bounds))).get? x =
      (s.get? x).or (σ.onParams params [name] x) := by
  by_cases hname : name ∈ params
  · obtain ⟨t, ht, hne⟩ := hσ name hname
    have hactual : σ.replace (.var name bounds) = t := by simp [replace, ht]
    rw [hactual, bindMatching.eq_2 _ _ _ _ _ hne, if_pos (by simpa using hname), get?_bind]
    by_cases hx : x = name
    · simp [onParams, hx, hname, ht]
    · simp [onParams, hx]
  · have hsame : s.bindMatching params (.var name bounds) (σ.replace (.var name bounds)) = s := by
      generalize σ.replace (.var name bounds) = actual
      by_cases hactual : actual = .unknown
      · rw [hactual, bindMatching.eq_1]
      · rw [bindMatching.eq_2 _ _ _ _ _ hactual, if_neg (by simpa using hname)]
    have hnone : σ.onParams params [name] x = none := by
      refine if_neg fun hx => hname ?_
      exact List.mem_singleton.1 hx.2 ▸ hx.1
    rw [hsame, hnone, Option.or_none]

mutual

/-- Matching a type with its own instance binds the parameters that occur in it to what was put in
their place; what was bound before stays. -/
theorem get?_bindMatching_replace (hσ : σ.Known params) : ∀ (t : Ty) (s : Subst) (x : String),
    (s.bindMatching params t (σ.replace t)).get? x =
      (s.get? x).or (σ.onParams params t.vars x)
  | .var name bounds, s, x => get?_bindMatching_var hσ s name bounds x
  | .generic base args, s, x => by
    simp only [replace, bindMatching, ↓reduceIte, Ty.vars]
    exact get?_bindList_replaceList hσ args s x
  | .ref inner _, s, x => get?_bindMatching_replace hσ inner s x
  | .tuple elems, s, x => get?_bindList_replaceList hσ elems s x
  | .func ps r, s, x => by
    simp only [replace, bindMatching, Ty.vars]
    rw [get?_bindMatching_replace hσ r, get?_bindList_replaceList hσ ps, Option.or_assoc,
      onParams_append]
  | .prim _, s, x => by simp [replace, bindMatching, Ty.vars, onParams]
  | .named _, s, x => by simp [replace, bindMatching, Ty.vars, onParams]
  | .unknown, s, x => by simp [replace, bindMatching, Ty.vars, onParams]

theorem get?_bindList_replaceList (hσ : σ.Known params) :
    ∀ (ts : List Ty) (s : Subst) (x : String),
    (bindMatching.bindList params s ts (replace.replaceList σ ts)).get? x =
      (s.get? x).or (σ.onParams params (Ty.vars.varsOf ts) x)
  | [], s, x => by simp [bindMatching.bindList, Ty.vars.varsOf, onParams]
  | t :: ts, s, x => by
    simp only [replace.replaceList, bindMatching.bindList, Ty.vars.varsOf]
    rw [get?_bindList_replaceList hσ ts, get?_bindMatching_replace hσ t, Option.or_assoc,
      onParams_append]

end

end Subst

/-! ## Calls -/

namespace Callable

variable {σ : Subst}

/-- Matching the parameters of a callee with their instances, one after the other. -/
theorem get?_foldl_bindMatching {params : List String} (hσ : σ.Known params) (ts : List Ty)
    (s : Subst) (x : String) :
    ((ts.zip (ts.map σ.apply)).foldl (fun s p => s.bindMatching params p.1 p.2) s).get? x =
      (s.get? x).or (σ.onParams params (Ty.vars.varsOf ts) x) := by
  induction ts generalizing s with
  | nil => simp [Ty.vars.varsOf, Subst.onParams]
  | cons t ts ih =>
    rw [List.map_cons, List.zip_cons_cons, List.foldl_cons, ih, Subst.apply_eq_replace,
      Subst.get?_bindMatching_replace hσ, Option.or_assoc, ← Subst.onParams_append]
    rfl

/-- Let the arguments of a call be the parameters of the callee with known types in the place of the
type parameters. Then the type of the call is the same whether these types are written at the call or
found by matching, provided that the parameters mention every type parameter that the result
mentions. It is the result with the types in their places. -/
theorem result_explicit_eq_matched (c : Callable) (explicit : List Ty)
    (hlength : explicit.length = c.typeParams.length) (hknown : ∀ t ∈ explicit, t ≠ .unknown)
    (hmentioned : ∀ x ∈ c.paramNames, x ∈ c.ret.vars → ∃ p ∈ c.params, x ∈ p.vars) :
    let σ := Subst.ofArgs c.paramNames explicit
    c.result explicit (c.params.map σ.apply) = c.result [] (c.params.map σ.apply) ∧
      c.result [] (c.params.map σ.apply) = σ.apply c.ret := by
  intro σ
  have hσ : σ.Known c.paramNames :=
    Subst.known_ofArgs (by simp [paramNames, hlength]) hknown
  have hmatched : c.result [] (c.params.map σ.apply) = σ.apply c.ret := by
    rw [result, Subst.apply_eq_replace, Subst.apply_eq_replace]
    refine Subst.replace_congr fun x hx => ?_
    rw [arguments, if_pos List.isEmpty_nil, get?_foldl_bindMatching hσ, Table.get?_empty,
      Option.none_or, Subst.onParams]
    by_cases hparam : x ∈ c.paramNames
    · rw [if_pos ⟨hparam, Ty.mem_varsOf.2 (hmentioned x hparam hx)⟩]
    · rw [if_neg fun h => hparam h.1, Subst.get?_ofArgs_of_notMem hparam]
  refine ⟨?_, hmatched⟩
  cases explicit with
  | nil => rfl
  | cons t ts => exact hmatched.symm

/-- A callee `swap<T, U>(x: &T, y: vector<U>): (U, T)`. -/
def swap : Callable where
  typeParams := [⟨"T", ∅, false⟩, ⟨"U", .ofList [.copy], false⟩]
  params := [.ref (.var "T" ∅) false, .vector (.var "U" (.ofList [.copy]))]
  ret := .tuple [.var "U" (.ofList [.copy]), .var "T" ∅]

/-- The types put in the place of `T` and `U` mention `U` and `T`. -/
theorem result_explicit_eq_matched_swap :
    let explicit : List Ty := [.vector (.var "U" ∅), .ref (.var "T" ∅) true]
    swap.result explicit [.ref (.vector (.var "U" ∅)) false, .vector (.ref (.var "T" ∅) true)] =
        .tuple [.ref (.var "T" ∅) true, .vector (.var "U" ∅)] ∧
      swap.result [] [.ref (.vector (.var "U" ∅)) false, .vector (.ref (.var "T" ∅) true)] =
        .tuple [.ref (.var "T" ∅) true, .vector (.var "U" ∅)] := by
  intro explicit
  have h := swap.result_explicit_eq_matched explicit rfl (by decide) (by decide)
  exact ⟨h.1.trans h.2, h.2⟩

end Callable

end MoveTyping
