import MoveTyping.Proofs.Scope.Outline
import MoveTyping.Proofs.Tree.Nesting

/-!
# Bindings

What blocks and functions declare, said by rules over the child lists of a tree and not by a search.
A block declares the names of its `let` statements, for the statements after them: of several the
last one counts, and in the pattern of a `let` the last name. A function declares its parameters,
and of several of one name the first one counts. The search in one scope follows these rules.

## Main definitions

* `IsFirst`, `IsLast` — the first and the last element of a list with a property.
* `Tree.HasName`, `Tree.LastName` — the names in a pattern.
* `Tree.Declares` — what blocks and functions declare.

## Main results

* `Scope.findsLast_binding?` — the search in a pattern finds the last name.
* `Scope.local?_eq_some_iff` — the search in a block or function finds what is declared.
-/

namespace MoveTyping

/-! ## First and last elements -/

section Lists

variable {α β : Type} {P : α → Prop} {R : α → β → Prop} {l : List α} {a : α} {b : β}

/-- The first element of a list with a property. -/
def IsFirst (P : α → Prop) (l : List α) (a : α) : Prop :=
  ∃ before after, l = before ++ a :: after ∧ P a ∧ ∀ c ∈ before, ¬P c

/-- The last element of a list with a property. -/
def IsLast (P : α → Prop) (l : List α) (a : α) : Prop :=
  ∃ before after, l = before ++ a :: after ∧ P a ∧ ∀ c ∈ after, ¬P c

theorem IsLast.mem (h : IsLast P l a) : a ∈ l := by
  obtain ⟨before, after, rfl, -⟩ := h
  simp

theorem exists_isFirst (ha : a ∈ l) (hP : P a) : ∃ b, IsFirst P l b := by
  induction l with
  | nil => cases ha
  | cons c l ih =>
    by_cases hc : P c
    · exact ⟨c, [], l, rfl, hc, by simp⟩
    · have ha : a ∈ l := (List.mem_cons.1 ha).resolve_left fun h => hc (h ▸ hP)
      obtain ⟨b, before, after, rfl, hb, hbefore⟩ := ih ha
      exact ⟨b, c :: before, after, rfl, hb, List.forall_mem_cons.2 ⟨hc, hbefore⟩⟩

theorem find?_eq_some_iff_isFirst {q : α → Bool} (hq : ∀ a ∈ l, q a = true ↔ P a) :
    l.find? q = some a ↔ IsFirst P l a := by
  rw [List.find?_eq_some_iff_append, IsFirst]
  constructor
  · rintro ⟨ha, before, after, rfl, hbefore⟩
    refine ⟨before, after, rfl, (hq a (by simp)).1 ha, fun c hc hP => ?_⟩
    simpa [(hq c (by simp [hc])).2 hP] using hbefore c hc
  · rintro ⟨before, after, rfl, ha, hbefore⟩
    refine ⟨(hq a (by simp)).2 ha, before, after, rfl, fun c hc => ?_⟩
    simpa using fun hqc => hbefore c hc ((hq c (by simp [hc])).1 hqc)

theorem findSome?_eq_some_iff_isFirst {f : α → Option β}
    (hsome : ∀ a ∈ l, ∀ b, f a = some b ↔ R a b) :
    l.findSome? f = some b ↔ ∃ a, IsFirst (fun a => ∃ b, R a b) l a ∧ R a b := by
  have hnone : ∀ a ∈ l, (f a = none ↔ ¬∃ b, R a b) := by
    intro a ha
    simp only [Option.eq_none_iff_forall_ne_some, ne_eq, hsome a ha, not_exists]
  rw [List.findSome?_eq_some_iff]
  constructor
  · rintro ⟨before, a, after, rfl, ha, hbefore⟩
    have hR := (hsome a (by simp) b).1 ha
    refine ⟨a, ⟨before, after, rfl, ⟨b, hR⟩, fun c hc => ?_⟩, hR⟩
    exact (hnone c (by simp [hc])).1 (hbefore c hc)
  · rintro ⟨a, ⟨before, after, rfl, -, hbefore⟩, hR⟩
    refine ⟨before, a, after, rfl, (hsome a (by simp) b).2 hR, fun c hc => ?_⟩
    exact (hnone c (by simp [hc])).2 (hbefore c hc)

/-- A search from the end, where `P` says of which elements something is found. -/
theorem findSome?_reverse_eq_some_iff_isLast {f : α → Option β}
    (hsome : ∀ a ∈ l, ∀ b, f a = some b ↔ R a b) (hnone : ∀ a ∈ l, f a = none ↔ ¬P a) :
    l.reverse.findSome? f = some b ↔ ∃ a, IsLast P l a ∧ R a b := by
  rw [List.findSome?_eq_some_iff]
  constructor
  · rintro ⟨later, a, earlier, hsplit, ha, hlater⟩
    obtain rfl : l = earlier.reverse ++ a :: later.reverse := by
      rw [← List.reverse_reverse l, hsplit]
      simp
    have hP : P a := by_contra fun hP => by simp [(hnone a (by simp)).2 hP] at ha
    refine ⟨a, ⟨_, _, rfl, hP, fun c hc => ?_⟩, (hsome a (by simp) b).1 ha⟩
    exact (hnone c (by simp_all)).1 (hlater c (by simpa using hc))
  · rintro ⟨a, ⟨before, after, rfl, -, hafter⟩, hR⟩
    refine ⟨after.reverse, a, before.reverse, by simp, (hsome a (by simp) b).2 hR, fun c hc => ?_⟩
    have hc : c ∈ after := by simpa using hc
    exact (hnone c (by simp [hc])).2 (hafter c hc)

theorem findSome?_filter_filterMap {γ : Type} (f : α → Option β) (q : β → Bool) (g : β → Option γ)
    (l : List α) :
    ((l.filterMap f).filter q).findSome? g = l.findSome? fun a => ((f a).filter q).bind g := by
  induction l with
  | nil => rfl
  | cons a l ih =>
    cases hf : f a with
    | none => simp [hf, ih]
    | some b =>
      cases hq : q b with
      | false => simp [hf, hq, ih]
      | true => simp [hf, hq, ih, List.findSome?_cons, Option.filter]

/-- What stands before an element that occurs once. -/
theorem takeWhile_ne_of_nodup [DecidableEq α] {before after : List α} (hl : l.Nodup)
    (hsplit : l = before ++ a :: after) : l.takeWhile (· ≠ a) = before := by
  subst hsplit
  have hne : ∀ c ∈ before, decide (c ≠ a) = true := by
    intro c hc
    simpa using (List.nodup_append.1 hl).2.2 c hc a List.mem_cons_self
  rw [List.takeWhile_append_of_pos hne]
  simp

end Lists

/-! ## Patterns -/

namespace Tree

section Patterns

variable (t : Tree) (x : String)

/-- A pattern has the name `x` at a node. -/
inductive HasName : (pattern decl : NodeId) → Prop where
  | name {p : NodeId} : t.kind? p = some (.bindName x) → HasName p p
  | elem {p e d : NodeId} {elems : Slice} :
    t.kind? p = some (.bindTuple elems) → e ∈ t.list elems → HasName e d → HasName p d

/-- The last node at which a pattern has the name `x`. -/
inductive LastName : (pattern decl : NodeId) → Prop where
  | name {p : NodeId} : t.kind? p = some (.bindName x) → LastName p p
  | elem {p e d : NodeId} {elems : Slice} :
    t.kind? p = some (.bindTuple elems) →
    IsLast (fun e => ∃ d, HasName t x e d) (t.list elems) e → LastName e d → LastName p d

end Patterns

variable {t : Tree} {x : String} {p d : NodeId}

theorem LastName.hasName (h : t.LastName x p d) : t.HasName x p d := by
  induction h with
  | name hk => exact .name hk
  | elem hk he _ ih => exact .elem hk he.mem ih

theorem HasName.kind? (h : t.HasName x p d) : t.kind? d = some (.bindName x) := by
  induction h with
  | name hk => exact hk
  | elem _ _ _ ih => exact ih

/-- Only names and tuples have names in them. -/
theorem HasName.kind?_pattern (h : t.HasName x p d) :
    (∃ bound, t.kind? p = some (.bindName bound)) ∨
      ∃ elems, t.kind? p = some (.bindTuple elems) := by
  cases h with
  | name hk => exact .inl ⟨x, hk⟩
  | elem hk _ _ => exact .inr ⟨_, hk⟩

theorem hasName_bindName {bound : String} (hk : t.kind? p = some (.bindName bound)) :
    t.HasName x p d ↔ bound = x ∧ p = d := by
  constructor
  · intro h
    cases h with
    | name hk' => exact ⟨by simpa [hk] using hk', rfl⟩
    | elem hk' => simp [hk] at hk'
  · rintro ⟨rfl, rfl⟩
    exact .name hk

theorem lastName_bindName {bound : String} (hk : t.kind? p = some (.bindName bound)) :
    t.LastName x p d ↔ bound = x ∧ p = d := by
  constructor
  · exact fun h => (hasName_bindName hk).1 h.hasName
  · rintro ⟨rfl, rfl⟩
    exact .name hk

theorem hasName_bindTuple {elems : Slice} (hk : t.kind? p = some (.bindTuple elems)) :
    t.HasName x p d ↔ ∃ e ∈ t.list elems, t.HasName x e d := by
  constructor
  · intro h
    cases h with
    | name hk' => simp [hk] at hk'
    | elem hk' he h =>
      cases hk.symm.trans hk'
      exact ⟨_, he, h⟩
  · rintro ⟨e, he, h⟩
    exact .elem hk he h

theorem lastName_bindTuple {elems : Slice} (hk : t.kind? p = some (.bindTuple elems)) :
    t.LastName x p d ↔
      ∃ e, IsLast (fun e => ∃ d, t.HasName x e d) (t.list elems) e ∧ t.LastName x e d := by
  constructor
  · intro h
    cases h with
    | name hk' => simp [hk] at hk'
    | elem hk' he h =>
      cases hk.symm.trans hk'
      exact ⟨_, he, h⟩
  · rintro ⟨e, he, h⟩
    exact .elem hk he h

/-- A result is the last node with the name, and there is none only if the pattern does not have the
name. -/
structure FindsLast (t : Tree) (x : String) (p : NodeId) (r : Option NodeId) : Prop where
  some_iff : ∀ d, r = some d ↔ t.LastName x p d
  none_iff : r = none ↔ ¬∃ d, t.HasName x p d

theorem findsLast_none (h : ∀ d, ¬t.HasName x p d) : t.FindsLast x p none :=
  ⟨fun d => iff_of_false (by simp) fun hd => h d hd.hasName, iff_of_true rfl (not_exists.2 h)⟩

end Tree

namespace Scope

variable {s : Scope} {t : Tree} {x : String} {p d : NodeId}

theorem findsLast_bindingWithin? (ht : t.BottomUp) (x : String) (fuel : Nat) (p : NodeId)
    (hfuel : ∀ kind, t.kind? p = some kind → p.index < fuel) :
    t.FindsLast x p (bindingWithin? t x fuel p) := by
  induction fuel generalizing p with
  | zero =>
    refine Tree.findsLast_none fun d h => ?_
    rcases h.kind?_pattern with ⟨_, hk⟩ | ⟨_, hk⟩ <;> exact Nat.not_lt_zero _ (hfuel _ hk)
  | succ fuel ih =>
    rw [bindingWithin?]
    split
    next bound hk =>
      by_cases hname : bound = x <;>
        constructor <;> simp [Tree.lastName_bindName hk, Tree.hasName_bindName hk, hname]
    next elems hk =>
      have hspec : ∀ e ∈ t.list elems, t.FindsLast x e (bindingWithin? t x fuel e) := by
        intro e he
        have hlt : e.index < p.index := ht.index_lt_of_kind? hk he
        have hp := hfuel _ hk
        exact ih e fun _ _ => by omega
      constructor
      · intro d
        rw [Tree.lastName_bindTuple hk]
        exact findSome?_reverse_eq_some_iff_isLast (fun e he => (hspec e he).some_iff)
          fun e he => (hspec e he).none_iff
      · rw [List.findSome?_eq_none_iff]
        simp only [Tree.hasName_bindTuple hk, List.mem_reverse]
        constructor
        · rintro h ⟨d, e, he, hd⟩
          exact (hspec e he).none_iff.1 (h e he) ⟨d, hd⟩
        · intro h e he
          refine (hspec e he).none_iff.2 ?_
          rintro ⟨d, hd⟩
          exact h ⟨d, e, he, hd⟩
    next hname htuple =>
      refine Tree.findsLast_none fun d h => ?_
      rcases h.kind?_pattern with ⟨bound, hk⟩ | ⟨elems, hk⟩
      · exact hname bound hk
      · exact htuple elems hk

theorem findsLast_binding? (ht : t.BottomUp) (x : String) (p : NodeId) :
    t.FindsLast x p (binding? t x p) := by
  refine findsLast_bindingWithin? ht x (t.size + 1) p fun kind hk => ?_
  have := (Arena.mem_ids.1 (Arena.mem_ids_of_kind? hk)).2
  omega

end Scope

/-! ## Blocks and functions -/

def NodeKind.isParam : NodeKind → Bool
  | param .. => true
  | _ => false

namespace Tree

/-- The parameters of a function. -/
def params (t : Tree) (f : NodeId) : List NodeId :=
  match t.kind? f with
  | some (.function _ _ params _ _) => t.list params
  | _ => []

/-- The parameter lists of functions hold parameters only. -/
def ParamsOnly (t : Tree) : Prop :=
  ∀ f ∈ t.ids, ∀ p ∈ t.params f, (t.kind? p).any NodeKind.isParam = true

instance (t : Tree) : Decidable t.ParamsOnly := by
  unfold ParamsOnly
  infer_instance

/-- A `let` statement binds the name `x`, at last at `decl`. -/
def LetBinds (t : Tree) (x : String) (stmt decl : NodeId) : Prop :=
  ∃ pattern ty init, t.kind? stmt = some (.letStmt pattern ty init) ∧ t.LastName x pattern decl

/-- What a block or a function declares as `x` for its part `child`. -/
inductive Declares (t : Tree) (x : String) (child scope decl : NodeId) : Prop where
  /-- The last `let` that binds the name counts, among the statements before `child`. -/
  | block {stmts : Slice} {before after : List NodeId} {stmt : NodeId} :
    t.kind? scope = some (.block stmts) → t.list stmts = before ++ child :: after →
    IsLast (fun stmt => ∃ d, t.LetBinds x stmt d) before stmt → t.LetBinds x stmt decl →
    Declares t x child scope decl
  /-- The first parameter of the name counts. -/
  | function {name : String} {typeParams params : Slice} {ret body : Option NodeId} :
    t.kind? scope = some (.function name typeParams params ret body) →
    IsFirst (fun p => ∃ ty, t.kind? p = some (.param x ty)) (t.list params) decl →
    Declares t x child scope decl

end Tree

namespace Scope

variable {s : Scope} {t : Tree} {x : String} {child scope d : NodeId}

/-- The binding of `x` by a `let` statement. -/
def letBinding? (t : Tree) (x : String) (stmt : NodeId) : Option NodeId :=
  match t.kind? stmt with
  | some (.letStmt pattern _ _) => binding? t x pattern
  | _ => none

theorem letBinding?_eq_some_iff (ht : t.BottomUp) (stmt d : NodeId) :
    letBinding? t x stmt = some d ↔ t.LetBinds x stmt d := by
  unfold letBinding? Tree.LetBinds
  split
  next pattern ty init hstmt =>
    rw [(findsLast_binding? ht x pattern).some_iff]
    simp [hstmt]
  next hother => simpa using fun pattern ty init hstmt => absurd hstmt (hother pattern ty init)

theorem letBinding?_eq_none_iff (ht : t.BottomUp) (stmt : NodeId) :
    letBinding? t x stmt = none ↔ ¬∃ d, t.LetBinds x stmt d := by
  simp only [Option.eq_none_iff_forall_ne_some, ne_eq, letBinding?_eq_some_iff ht, not_exists]

theorem blockBinding?_eq_some_iff (ht : t.Nested) {stmts : Slice}
    (hk : t.kind? scope = some (.block stmts)) (hc : child ∈ t.children scope) :
    blockBinding? t (t.list stmts) child x = some d ↔ t.Declares x child scope d := by
  have hlist : t.children scope = t.list stmts := by simp [Arena.children, hk, NodeKind.children]
  have hnodup : (t.list stmts).Nodup := hlist ▸ ht.nodup_children scope
  obtain ⟨before, after, hsplit⟩ := List.append_of_mem (hlist ▸ hc)
  have hbefore := takeWhile_ne_of_nodup hnodup hsplit
  have hsearch : blockBinding? t (t.list stmts) child x =
      before.reverse.findSome? (letBinding? t x) := hbefore ▸ rfl
  rw [hsearch, findSome?_reverse_eq_some_iff_isLast
    (fun stmt _ => letBinding?_eq_some_iff ht.bottomUp stmt)
    fun stmt _ => letBinding?_eq_none_iff ht.bottomUp stmt]
  constructor
  · rintro ⟨stmt, hlast, hstmt⟩
    exact .block hk hsplit hlast hstmt
  · rintro (⟨hk', hsplit', hlast, hstmt⟩ | ⟨hk', -⟩)
    · cases hk.symm.trans hk'
      rw [takeWhile_ne_of_nodup hnodup hsplit'] at hbefore
      exact ⟨_, hbefore ▸ hlast, hstmt⟩
    · cases hk.symm.trans hk'

theorem declared?_params_eq_some_iff (ht : t.ParamsOnly) {name : String}
    {typeParams params : Slice} {ret body : Option NodeId}
    (hk : t.kind? scope = some (.function name typeParams params ret body)) :
    declared? t (t.list params) x = some d ↔ t.Declares x child scope d := by
  have hparam : ∀ p ∈ t.list params, (decide ((t.kind? p).bind NodeKind.declaredName? = some x) =
      true ↔ ∃ ty, t.kind? p = some (.param x ty)) := by
    intro p hp
    have hp := ht scope (Arena.mem_ids_of_kind? hk) p (by simpa [Tree.params, hk] using hp)
    obtain ⟨kind, hkind, hisParam⟩ := (Option.any_eq_true _ _).1 hp
    cases kind <;> simp_all [NodeKind.isParam, NodeKind.declaredName?]
  rw [declared?, find?_eq_some_iff_isFirst hparam]
  constructor
  · exact fun h => .function hk h
  · rintro (⟨hk', -⟩ | ⟨hk', h⟩)
    · cases hk.symm.trans hk'
    · cases hk.symm.trans hk'
      exact h

theorem local?_eq_some_iff (ht : t.Nested) (hparams : t.ParamsOnly) {kind : NodeKind}
    (hk : t.kind? scope = some kind) (hc : child ∈ t.children scope) :
    local? t kind child x .value = some d ↔ t.Declares x child scope d := by
  cases kind with
  | block stmts => exact blockBinding?_eq_some_iff ht hk hc
  | function name typeParams params ret body => exact declared?_params_eq_some_iff hparams hk
  | _ =>
    refine iff_of_false (by simp [local?]) ?_
    rintro (⟨hk', -⟩ | ⟨hk', -⟩) <;> cases hk.symm.trans hk'

end Scope

end MoveTyping
