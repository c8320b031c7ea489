import Mathlib.Data.List.Forall2
import MoveTyping.Tree.Build
import MoveTyping.Proofs.Ty.Instance

/-!
# Bounds of type arguments

A call is checked against the bounds of the type parameters of its callee. The check reports the
parameters whose arguments lack an ability, and of each all that it lacks. Where it reports nothing,
the parameters and the result of the callee lose no ability when the type arguments of the call are
put into them.

To ask for records does not change what an engine says about abilities, so it does not matter when
they are asked for.

## Main definitions

* `Inference.abilitiesOf` — the abilities of a type, as an engine tells them.
* `Callable.CarriesBounds` — the variables of a signature have the bounds of its type parameters.
* `TypeParam.Violated` — the argument of a type parameter lacks an ability.
* `BoundViolation.Reports` — a violation says what a type argument lacks.

## Main results

* `Inference.forall₂_boundsRule` — the check reports what is violated.
* `Callable.abilities_subset_apply_arguments` — abilities under arguments that violate nothing.
-/

namespace MoveTyping

/-! ## Abilities in runs -/

namespace Rule

theorem Consults.mapM {α β : Type} {known : QName → Option Record} {rule : α → Rule β} {f : α → β}
    (h : ∀ a, (rule a).Consults known (f a)) (l : List α) :
    (l.mapM rule).Consults known (l.map f) := by
  induction l with
  | nil => exact consults_pure _
  | cons a l ih =>
    rw [List.mapM_cons, List.map_cons]
    exact (h a).bind (ih.bind (consults_pure _))

end Rule

namespace Inference

variable {α : Type} {i : Inference} {e : Engine}

/-- The abilities of a type, as an engine tells them. -/
def abilitiesOf (i : Inference) (e : Engine) (t : Ty) : AbilitySet := (i.perform (.abilities t) e).1

theorem abilitiesOf_eq : i.abilitiesOf e = Ty.abilities (i.known? e) :=
  funext fun t => perform_of_consults t.consults_abilitiesM

end Inference

/-! ## What is violated -/

/-- A variable of the name of the parameter has the bounds of the parameter. -/
def Ty.Carries (p : TypeParam) : Ty → Prop
  | var x bounds => x = p.name → bounds = p.bounds
  | _ => True

instance (p : TypeParam) : DecidablePred (Ty.Carries p)
  | .var x bounds => inferInstanceAs (Decidable (x = p.name → bounds = p.bounds))
  | .prim _ | .named _ | .generic _ _ | .ref _ _ | .tuple _ | .func _ _ | .unknown =>
    .isTrue trivial

/-- Every variable of the signature that is named after a type parameter has its bounds. -/
def Callable.CarriesBounds (c : Callable) : Prop :=
  ∀ t ∈ c.ret :: c.params, ∀ u ∈ t.parts, ∀ p ∈ c.typeParams, u.Carries p

instance (c : Callable) : Decidable c.CarriesBounds :=
  inferInstanceAs (Decidable
    (∀ t ∈ c.ret :: c.params, ∀ u ∈ t.parts, ∀ p ∈ c.typeParams, u.Carries p))

namespace TypeParam

variable (call : NodeId) (σ : Subst) (abilities : Ty → AbilitySet)

/-- The parameter has bounds, and its argument is fully known and does not have them all. -/
def Violated (p : TypeParam) : Prop :=
  p.bounds ≠ ∅ ∧ ∃ t, σ.get? p.name = some t ∧ t.hasUnknown = false ∧ ¬p.bounds ⊆ abilities t

instance : DecidablePred (Violated σ abilities) := fun p =>
  decidable_of_iff
    (p.bounds ≠ ∅ ∧ (σ.get? p.name).any fun t =>
      !t.hasUnknown && !(abilities t).covers p.bounds) (by
    simp [Violated, Option.any_eq_true, ← AbilitySet.covers_iff])

/-- What the check says about a parameter. -/
def violation? (p : TypeParam) : Option BoundViolation :=
  (σ.get? p.name).bind fun t =>
    if p.bounds.isEmpty || t.hasUnknown then none
    else if (p.bounds \ abilities t).isEmpty then none
    else some ⟨call, p.name, t, p.bounds, p.bounds \ abilities t⟩

end TypeParam

/-- The violation names the call, the parameter, its argument and its bounds, and exactly those of
the bounds that the argument does not have. -/
structure BoundViolation.Reports (call : NodeId) (σ : Subst) (abilities : Ty → AbilitySet)
    (p : TypeParam) (v : BoundViolation) : Prop where
  call : v.call = call
  param : v.param = p.name
  ty : σ.get? p.name = some v.ty
  required : v.required = p.bounds
  missing : ∀ a, v.missing.has a = true ↔ p.bounds.has a = true ∧ (abilities v.ty).has a = false

theorem AbilitySet.isEmpty_sdiff {s t : AbilitySet} : (s \ t).isEmpty = true ↔ s ⊆ t := by
  rw [isEmpty, beq_iff_eq]
  constructor
  · intro h a ha
    have hnot : (s \ t).has a = false := by rw [h, has_empty]
    simpa [ha] using hnot
  · intro h
    refine ext_has fun a => ?_
    cases ha : s.has a with
    | false => simp [ha]
    | true => simp [ha, h a ha]

namespace TypeParam

variable {call : NodeId} {σ : Subst} {abilities : Ty → AbilitySet} {p : TypeParam}

theorem violation?_of_not_violated (h : ¬p.Violated σ abilities) :
    p.violation? call σ abilities = none := by
  unfold violation?
  cases ht : σ.get? p.name with
  | none => rfl
  | some t =>
    by_cases hskip : p.bounds = ∅ ∨ t.hasUnknown = true
    · simp [AbilitySet.isEmpty, hskip]
    · obtain ⟨hbounds, hknown⟩ := not_or.1 hskip
      have hhas : p.bounds ⊆ abilities t := by
        by_contra hlacks
        exact h ⟨hbounds, t, ht, by simpa using hknown, hlacks⟩
      simp [AbilitySet.isEmpty_sdiff.2 hhas]

theorem Violated.exists_violation? (h : p.Violated σ abilities) :
    ∃ v, p.violation? call σ abilities = some v ∧ v.Reports call σ abilities p := by
  obtain ⟨hbounds, t, ht, hknown, hlacks⟩ := h
  refine ⟨⟨call, p.name, t, p.bounds, p.bounds \ abilities t⟩, ?_, rfl, rfl, ht, rfl, ?_⟩
  · have hchecked : ¬(p.bounds.isEmpty || t.hasUnknown) = true := by
      simp [AbilitySet.isEmpty, hbounds, hknown]
    have hmissing : ¬(p.bounds \ abilities t).isEmpty = true := by
      rwa [AbilitySet.isEmpty_sdiff]
    rw [violation?, ht, Option.bind_some, if_neg hchecked, if_neg hmissing]
  · intro a
    simp

end TypeParam

/-! ## The check -/

theorem forall₂_filter_filterMap {α β : Type} {P : α → Prop} [DecidablePred P] {R : α → β → Prop}
    {f : α → Option β} (hnone : ∀ a, ¬P a → f a = none)
    (hsome : ∀ a, P a → ∃ b, f a = some b ∧ R a b) (l : List α) :
    List.Forall₂ R (l.filter P) (l.filterMap f) := by
  induction l with
  | nil => exact .nil
  | cons a l ih =>
    by_cases ha : P a
    · obtain ⟨b, hb, hR⟩ := hsome a ha
      rw [List.filter_cons_of_pos (by simpa using ha), List.filterMap_cons_some hb]
      exact .cons hR ih
    · rw [List.filter_cons_of_neg (by simpa using ha), List.filterMap_cons_none (hnone a ha)]
      exact ih

theorem Env.consults_boundRule {known : QName → Option Record} (call : NodeId) (σ : Subst)
    (p : TypeParam) :
    (boundRule call σ p).Consults known (p.violation? call σ (Ty.abilities known)) := by
  unfold boundRule TypeParam.violation?
  cases σ.get? p.name with
  | none => exact Rule.consults_pure _
  | some t =>
    simp only [Option.bind_some]
    split
    · exact Rule.consults_pure _
    · exact t.consults_abilitiesM.bind (Rule.consults_pure _)

namespace Inference

variable {i : Inference} {e : Engine} {call callee : NodeId} {args : Slice} {types : List Ty}
  {c : Callee}

theorem perform_boundsRule (hcall : i.env.program.kind? call = some (.call callee args))
    (htypes : (i.perform (i.env.argumentsRule callee args) e).1 = types)
    (hcallee : (i.perform (i.env.calleeRule callee)
      (i.perform (i.env.argumentsRule callee args) e).2).1 = some c) :
    (i.perform (i.env.boundsRule call) e).1 = c.callable.typeParams.filterMap
      (TypeParam.violation? call (c.callable.arguments c.explicit types) (i.abilitiesOf e)) := by
  rw [Env.boundsRule, hcall, abilitiesOf_eq]
  dsimp only
  rw [perform_bind, perform_bind, hcallee, htypes]
  refine perform_of_consults ?_
  rw [known?_perform, known?_perform, ← Function.id_comp (TypeParam.violation? _ _ _),
    ← List.filterMap_map]
  exact (Rule.Consults.mapM (Env.consults_boundRule call _) _).bind (Rule.consults_pure _)

theorem forall₂_boundsRule (hcall : i.env.program.kind? call = some (.call callee args))
    (htypes : (i.perform (i.env.argumentsRule callee args) e).1 = types)
    (hcallee : (i.perform (i.env.calleeRule callee)
      (i.perform (i.env.argumentsRule callee args) e).2).1 = some c) :
    let σ := c.callable.arguments c.explicit types
    List.Forall₂ (BoundViolation.Reports call σ (i.abilitiesOf e))
      (c.callable.typeParams.filter (TypeParam.Violated σ (i.abilitiesOf e)))
      (i.perform (i.env.boundsRule call) e).1 := by
  intro σ
  rw [perform_boundsRule hcall htypes hcallee]
  exact forall₂_filter_filterMap (fun p => TypeParam.violation?_of_not_violated)
    (fun p => TypeParam.Violated.exists_violation?) _

end Inference

/-- If the type arguments of a call are fully known and violate no bound, then the parameters and
the result of the callee have their abilities after the arguments are put into them. -/
theorem Callable.abilities_subset_apply_arguments {c : Callable} {known : QName → Option Record}
    (hc : c.CarriesBounds) (explicit args : List Ty) :
    let σ := c.arguments explicit args
    (∀ x u, σ.get? x = some u → u.hasUnknown = false) →
    (∀ p ∈ c.typeParams, ¬p.Violated σ (Ty.abilities known)) →
    ∀ t ∈ c.ret :: c.params, t.abilities known ⊆ (σ.apply t).abilities known := by
  intro σ hknown hnone t ht
  rw [Subst.apply_eq_replace]
  refine Ty.abilities_subset_replace fun x bounds u hvar hu => ?_
  obtain ⟨p, hp, rfl⟩ := List.mem_map.1 (mem_paramNames_of_get? hu)
  obtain rfl : bounds = p.bounds := hc t ht _ hvar p hp rfl
  by_contra hlacks
  refine hnone p hp ⟨fun hempty => hlacks ?_, u, hu, hknown _ u hu, hlacks⟩
  rw [hempty]
  exact fun a ha => by simp at ha

namespace Inference

variable {i : Inference} {e : Engine} {call callee : NodeId} {args : Slice} {types : List Ty}
  {c : Callee}

/-- Let the variables of the callee's signature have the bounds of its type parameters. Then the
check of a call reports, in the order of their declaration, exactly the parameters with bounds whose
argument is fully known and lacks an ability, and of each exactly the abilities that it lacks. If
all the arguments are fully known and nothing is reported, then neither the result nor a parameter
of the callee loses an ability when the arguments are put into it. -/
theorem boundsRule_exact_and_sufficient
    (hcall : i.env.program.kind? call = some (.call callee args))
    (htypes : (i.perform (i.env.argumentsRule callee args) e).1 = types)
    (hcallee : (i.perform (i.env.calleeRule callee)
      (i.perform (i.env.argumentsRule callee args) e).2).1 = some c)
    (hbounds : c.callable.CarriesBounds) :
    let σ := c.callable.arguments c.explicit types
    let violations := (i.perform (i.env.boundsRule call) e).1
    List.Forall₂ (BoundViolation.Reports call σ (i.abilitiesOf e))
        (c.callable.typeParams.filter (TypeParam.Violated σ (i.abilitiesOf e))) violations ∧
      ((∀ x t, σ.get? x = some t → t.hasUnknown = false) → violations = [] →
        ∀ t ∈ c.callable.ret :: c.callable.params,
          i.abilitiesOf e t ⊆ i.abilitiesOf e (σ.apply t)) := by
  intro σ violations
  have hreports : List.Forall₂ (BoundViolation.Reports call σ (i.abilitiesOf e))
      (c.callable.typeParams.filter (TypeParam.Violated σ (i.abilitiesOf e))) violations :=
    forall₂_boundsRule hcall htypes hcallee
  refine ⟨hreports, fun hknown hnone => ?_⟩
  have hviolated := hreports
  rw [hnone, List.forall₂_nil_right_iff] at hviolated
  rw [abilitiesOf_eq] at hviolated ⊢
  refine c.callable.abilities_subset_apply_arguments hbounds c.explicit types hknown fun p hp => ?_
  simpa using List.filter_eq_nil_iff.1 hviolated p hp

/-- Two calls of a function with a bounded type parameter, with the arguments swapped:

    struct Coin has store {}
    struct Box<T> has copy, store {}
    fun wrap<T: copy + store, U>(x: T, y: U): Box<T>;
    fun pay(c: Coin) { wrap(c, 1u8); wrap(1u8, c) }
-/
def boxes : Tree := Build.tree 0 do
  let coin ← Build.struct "Coin" [] ["store"] []
  let box ← Build.struct "Box" [← Build.typeParam "T" [] false] ["copy", "store"] []
  let typeParams := [← Build.typeParam "T" ["copy", "store"] false, ← Build.typeParam "U" [] false]
  let x ← Build.node (.param "x" (← Build.typePath (.simple "T") []))
  let y ← Build.node (.param "y" (← Build.typePath (.simple "U") []))
  let ret ← Build.typePath (.simple "Box") [← Build.typePath (.simple "T") []]
  let wrap ← Build.function "wrap" typeParams [x, y] ret none
  let c ← Build.node (.param "c" (← Build.typePath (.simple "Coin") []))
  let callWrap (first second : Build NodeId) : Build NodeId := do
    Build.call (← Build.path (.simple "wrap") []) [← first, ← second]
  let coinFirst ← callWrap (Build.path (.simple "c") []) (Build.node (.literal "1u8"))
  let coinSecond ← callWrap (Build.node (.literal "1u8")) (Build.path (.simple "c") [])
  let pay ← Build.function "pay" [] [c] none (← Build.block [coinFirst, coinSecond])
  Build.module "0x5" "m" [coin, box, wrap, pay]

def boxInference : Inference := ⟨.ofProgram (Program.empty.insert boxes) .empty, 1, .ofMax 8⟩

/-- The function `wrap`. -/
def wrap : Callable where
  typeParams := [⟨"T", .ofList [.copy, .store], false⟩, ⟨"U", ∅, false⟩]
  params := [.var "T" (.ofList [.copy, .store]), .var "U" ∅]
  ret := .generic (.full "0x5" "m" "Box") [.var "T" (.ofList [.copy, .store])]

/-- A coin in the place of `T` lacks `copy`. A coin in the place of `U` violates nothing, and the
box of the result keeps its abilities. -/
theorem boundsRule_exact_and_sufficient_boxes :
    let i := boxInference
    let e : Engine := .ofCache (.ofSettings {})
    let box (t : Ty) : Ty := .generic (.full "0x5" "m" "Box") [t]
    wrap.CarriesBounds ∧
      (∃ v, (i.perform (i.env.boundsRule ⟨0, 22⟩) e).1 = [v] ∧ v.param = "T" ∧
        ∀ a, v.missing.has a = true ↔ a = .copy) ∧
      (i.perform (i.env.boundsRule ⟨0, 26⟩) e).1 = [] ∧
      i.abilitiesOf e wrap.ret ⊆ i.abilitiesOf e (box (.prim .u8)) := by
  intro i e box
  let coin : Ty := .named (.full "0x5" "m" "Coin")
  have hbounds : wrap.CarriesBounds := by decide
  have hcall : i.env.program.kind? ⟨0, 22⟩ = some (.call ⟨0, 19⟩ ⟨11, 2⟩) ∧
      i.env.program.kind? ⟨0, 26⟩ = some (.call ⟨0, 23⟩ ⟨13, 2⟩) := by decide +kernel
  have htypes : (i.perform (i.env.argumentsRule ⟨0, 19⟩ ⟨11, 2⟩) e).1 = [coin, .prim .u8] ∧
      (i.perform (i.env.argumentsRule ⟨0, 23⟩ ⟨13, 2⟩) e).1 = [.prim .u8, coin] := by
    decide +kernel
  have hcallee : (i.perform (i.env.calleeRule ⟨0, 19⟩)
        (i.perform (i.env.argumentsRule ⟨0, 19⟩ ⟨11, 2⟩) e).2).1 = some ⟨wrap, []⟩ ∧
      (i.perform (i.env.calleeRule ⟨0, 23⟩)
        (i.perform (i.env.argumentsRule ⟨0, 23⟩ ⟨13, 2⟩) e).2).1 = some ⟨wrap, []⟩ := by
    decide +kernel
  have hnone : (i.perform (i.env.boundsRule ⟨0, 26⟩) e).1 = [] := by decide +kernel
  obtain ⟨hreports, -⟩ :=
    boundsRule_exact_and_sufficient hcall.1 htypes.1 hcallee.1 hbounds
  obtain ⟨-, hkeeps⟩ :=
    boundsRule_exact_and_sufficient hcall.2 htypes.2 hcallee.2 hbounds
  refine ⟨hbounds, ?_, hnone, ?_⟩
  · have hviolated : wrap.typeParams.filter
        (TypeParam.Violated (wrap.arguments [] [coin, .prim .u8]) (i.abilitiesOf e)) =
        [⟨"T", .ofList [.copy, .store], false⟩] := by decide +kernel
    rw [hviolated] at hreports
    obtain ⟨v, _, hv, hrest, hall⟩ := List.forall₂_cons_left_iff.1 hreports
    rw [List.forall₂_nil_left_iff] at hrest
    have hcoin : v.ty = coin := Option.some.inj (hv.ty.symm.trans (by decide +kernel))
    have hmissing : ∀ a, (AbilitySet.ofList [.copy, .store]).has a = true ∧
        (i.abilitiesOf e coin).has a = false ↔ a = .copy := by
      intro a
      cases a <;> decide +kernel
    refine ⟨v, hrest ▸ hall, hv.param, fun a => (hv.missing a).trans ?_⟩
    rw [hcoin]
    exact hmissing a
  · have hinstance : (wrap.arguments [] [.prim .u8, coin]).apply wrap.ret = box (.prim .u8) := by
      decide +kernel
    rw [← hinstance]
    refine hkeeps (fun x t hx => ?_) hnone wrap.ret List.mem_cons_self
    have hmem : x ∈ ["T", "U"] := Callable.mem_paramNames_of_get? hx
    have hget : (wrap.arguments [] [.prim .u8, coin]).get? "T" = some (.prim .u8) ∧
        (wrap.arguments [] [.prim .u8, coin]).get? "U" = some coin := by decide +kernel
    simp only [List.mem_cons, List.not_mem_nil, or_false] at hmem
    rcases hmem with rfl | rfl
    · cases hget.1.symm.trans hx
      rfl
    · cases hget.2.symm.trans hx
      rfl

end Inference

end MoveTyping
