import MoveTyping.Infer.Binding
import MoveTyping.Proofs.Loop
import MoveTyping.Proofs.Program

/-!
# Trees that are built bottom up

In a tree that is built bottom up every node refers to nodes of its own file that were added before.
So the links to parents lead to ever larger places and the parts of a pattern stand at ever smaller
ones, and the searches that follow them come to an end. Only the order of the nodes makes them end:
they count no rounds and remember no node.

## Main definitions

* `Tree.BottomUp` — the trees.
* `Tree.climb`, `Tree.comb`, `Env.ascend` — the searches, round by round: up the tree, through a
  pattern, and from a name to the `let` that binds it.

## Main results

* `Env.searchesEnd` — the searches end, with the results that name resolution and inference use.
-/

namespace MoveTyping

namespace Tree

variable {t : Tree} {id m : NodeId}

/-- Every node refers to nodes of the same file that were added before it. -/
def BottomUp (t : Tree) : Prop :=
  ∀ id ∈ t.ids, ∀ c ∈ t.children id, c.file = t.file ∧ c.index < id.index

instance (t : Tree) : Decidable t.BottomUp := by
  unfold BottomUp
  infer_instance

namespace BottomUp

theorem index_lt_of_parent? (ht : t.BottomUp) (h : t.parent? id = some m) :
    id.index < m.index ∧ m.index < t.size := by
  obtain ⟨hm, c, hc, hindex⟩ := points_of_parent? h
  exact ⟨hindex ▸ (ht m hm c hc).2, (Arena.mem_ids.1 hm).2⟩

theorem index_lt_of_kind? (ht : t.BottomUp) {kind : NodeKind} (hk : t.kind? id = some kind)
    {c : NodeId} (hc : c ∈ kind.children t.list) : c.index < id.index := by
  refine (ht id (Arena.mem_ids_of_kind? hk) c ?_).2
  rw [Arena.children, hk]
  exact hc

end BottomUp

/-! ## Up the tree -/

/-- A step from a node to its parent, with the nodes that were passed so far. -/
def climb (t : Tree) : Loop (NodeId × List NodeId) (List NodeId) := fun (id, passed) =>
  match t.parent? id with
  | none => .inl passed
  | some m => .inr (m, passed ++ [m])

theorem BottomUp.climb_ends_within (ht : t.BottomUp) (fuel : Nat) (id : NodeId)
    (passed : List NodeId) (hfuel : t.size ≤ id.index + fuel) :
    t.climb.Ends (id, passed) (passed ++ t.ancestorsWithin fuel id) := by
  induction fuel generalizing id passed with
  | zero =>
    cases hp : t.parent? id with
    | none => exact .stop (by simp [climb, hp, ancestorsWithin])
    | some m =>
      have := ht.index_lt_of_parent? hp
      omega
  | succ fuel ih =>
    cases hp : t.parent? id with
    | none => exact .stop (by simp [climb, hp, ancestorsWithin])
    | some m =>
      have := ht.index_lt_of_parent? hp
      have hend := ih m (passed ++ [m]) (by omega)
      rw [List.append_assoc, List.singleton_append] at hend
      have hround : t.climb (id, passed) = .inr (m, passed ++ [m]) := by simp only [climb, hp]
      refine .next hround ?_
      simpa only [ancestorsWithin, hp] using hend

/-- The way up from a node ends, and has passed the nodes above it. -/
theorem BottomUp.climb_ends (ht : t.BottomUp) (id : NodeId) :
    t.climb.Ends (id, []) (t.ancestors id) :=
  ht.climb_ends_within t.size id [] (Nat.le_add_left _ _)

/-! ## Through a pattern -/

/-- A step of the search for the binding of `name`, where `todo` are the parts of the pattern that
are still to be looked at. -/
def comb (t : Tree) (name : String) : Loop (List NodeId) (Option NodeId)
  | [] => .inl none
  | part :: todo =>
    match t.kind? part with
    | some (.bindName bound) => if bound = name then .inl (some part) else .inr todo
    | some (.bindTuple elems) => .inr ((t.list elems).reverse ++ todo)
    | _ => .inr todo

section Comb

variable {name : String} {todo : List NodeId} {r : Option NodeId}

/-- Parts that are looked at one after the other, if each of them is done with. -/
theorem comb_ends_append {find? : NodeId → Option NodeId} {parts : List NodeId}
    (hparts : ∀ p ∈ parts, ∀ {todo r}, (t.comb name).Ends todo r →
      (t.comb name).Ends (p :: todo) ((find? p).or r))
    (h : (t.comb name).Ends todo r) :
    (t.comb name).Ends (parts ++ todo) ((parts.findSome? find?).or r) := by
  induction parts with
  | nil => exact h
  | cons p parts ih =>
    have hrest := ih fun q hq => hparts q (List.mem_cons_of_mem _ hq)
    have hfirst := hparts p List.mem_cons_self hrest
    rw [List.findSome?_cons]
    cases hp : find? p with
    | none => simpa [hp] using hfirst
    | some x => simpa [hp] using hfirst

theorem BottomUp.comb_ends_within (ht : t.BottomUp) (fuel : Nat) (part : NodeId)
    (hfuel : ∀ kind, t.kind? part = some kind → part.index < fuel)
    (h : (t.comb name).Ends todo r) :
    (t.comb name).Ends (part :: todo) ((Scope.bindingWithin? t name fuel part).or r) := by
  induction fuel generalizing part todo r with
  | zero =>
    have hk : t.kind? part = none :=
      Option.eq_none_iff_forall_ne_some.2 fun kind hk => absurd (hfuel kind hk) (Nat.not_lt_zero _)
    have hround : t.comb name (part :: todo) = .inr todo := by simp only [comb, hk]
    refine .next hround ?_
    simpa [Scope.bindingWithin?] using h
  | succ fuel ih =>
    cases hk : t.kind? part with
    | none =>
      have hround : t.comb name (part :: todo) = .inr todo := by simp only [comb, hk]
      refine .next hround ?_
      simpa [Scope.bindingWithin?, hk] using h
    | some kind =>
      cases kind with
      | bindName bound =>
        by_cases hname : bound = name
        · exact .stop (by simp [comb, hk, hname, Scope.bindingWithin?])
        · have hround : t.comb name (part :: todo) = .inr todo := by
            simp only [comb, hk, if_neg hname]
          refine .next hround ?_
          simpa [Scope.bindingWithin?, hk, hname] using h
      | bindTuple elems =>
        have helems : ∀ c ∈ (t.list elems).reverse, ∀ {todo r}, (t.comb name).Ends todo r →
            (t.comb name).Ends (c :: todo) ((Scope.bindingWithin? t name fuel c).or r) := by
          intro c hc todo r h
          have hpart := hfuel _ hk
          have hlt : c.index < part.index :=
            ht.index_lt_of_kind? hk (List.mem_reverse.1 hc)
          exact ih c (fun _ _ => by omega) h
        have hround : t.comb name (part :: todo) = .inr ((t.list elems).reverse ++ todo) := by
          simp only [comb, hk]
        refine .next hround ?_
        simpa only [Scope.bindingWithin?, hk] using comb_ends_append helems h
      | _ =>
        have hround : t.comb name (part :: todo) = .inr todo := by simp only [comb, hk]
        refine .next hround ?_
        simpa [Scope.bindingWithin?, hk] using h

end Comb

/-- The search through a pattern ends, and has found the binding. -/
theorem BottomUp.comb_ends (ht : t.BottomUp) (name : String) (pattern : NodeId) :
    (t.comb name).Ends [pattern] (Scope.binding? t name pattern) := by
  have hfuel : ∀ kind, t.kind? pattern = some kind → pattern.index < t.size + 1 := by
    intro kind hk
    have := (Arena.mem_ids.1 (Arena.mem_ids_of_kind? hk)).2
    omega
  have hnil : (t.comb name).Ends [] none := .stop rfl
  have hend := ht.comb_ends_within (t.size + 1) pattern hfuel hnil
  rwa [Option.or_none] at hend

end Tree

/-! ## From a name to its `let` -/

namespace Env

variable {env : Env} {t : Tree}

/-- A step from a part of a pattern to what it is a part of, where `inner` are the places from that
part to the name. -/
def ascend (env : Env) : Loop (NodeId × List Nat) (Option BindingSite) := fun (part, inner) =>
  match env.program.parent? part with
  | none => .inl none
  | some parent =>
    match env.program.kind? parent with
    | some (.bindTuple elems) =>
      match (env.program.list parent.file elems).idxOf? part with
      | none => .inl none
      | some place => .inr (parent, place :: inner)
    | some (.letStmt pattern ty init) =>
      .inl (if pattern = part then some ⟨inner, ty, init⟩ else none)
    | _ => .inl none

theorem ascend_ends_within (ht : t.BottomUp) (fuel : Nat) (part : NodeId) (inner : List Nat)
    (htree : env.program.tree? part.file = some t) (hfuel : t.size ≤ part.index + fuel) :
    env.ascend.Ends (part, inner) (env.siteWithin? fuel part inner) := by
  have hlt : ∀ {part m : NodeId}, env.program.tree? part.file = some t →
      env.program.parent? part = some m → part.index < m.index ∧ m.index < t.size := by
    intro part m htree hm
    rw [Program.parent?, htree] at hm
    exact ht.index_lt_of_parent? hm
  induction fuel generalizing part inner with
  | zero =>
    cases hp : env.program.parent? part with
    | none => exact .stop (by simp only [ascend, hp, siteWithin?])
    | some m =>
      have := hlt htree hp
      omega
  | succ fuel ih =>
    cases hp : env.program.parent? part with
    | none => exact .stop (by simp [ascend, hp, siteWithin?])
    | some m =>
      cases hk : env.program.kind? m with
      | none => exact .stop (by simp [ascend, hp, hk, siteWithin?])
      | some kind =>
        cases kind with
        | bindTuple elems =>
          cases hplace : (env.program.list m.file elems).idxOf? part with
          | none => exact .stop (by simp [ascend, hp, hk, hplace, siteWithin?])
          | some place =>
            have hm : env.program.tree? m.file = some t :=
              (Program.file_of_parent? hp).symm ▸ htree
            have hindex := hlt htree hp
            have hround : env.ascend (part, inner) = .inr (m, place :: inner) := by
              simp only [ascend, hp, hk, hplace]
            refine .next hround ?_
            simpa [siteWithin?, hp, hk, hplace] using ih m (place :: inner) hm (by omega)
        | letStmt pattern ty init => exact .stop (by simp [ascend, hp, hk, siteWithin?])
        | _ => exact .stop (by simp [ascend, hp, hk, siteWithin?])

/-- The way from a name to the `let` that binds it ends, and has found the site. -/
theorem ascend_ends (h : ∀ t ∈ env.program.trees, t.BottomUp) (name : NodeId) :
    env.ascend.Ends (name, []) (env.bindingSite? name) := by
  unfold bindingSite?
  cases htree : env.program.tree? name.file with
  | none => exact .stop (by simp [ascend, Program.parent?, htree])
  | some t =>
    have ht : t.BottomUp := h t (List.mem_of_find?_eq_some htree)
    exact ascend_ends_within ht (t.size + 1) name [] htree (by omega)

/-- The searches end, with the results that name resolution and inference use. -/
structure SearchesEnd (env : Env) : Prop where
  climb : ∀ t ∈ env.program.trees, ∀ id, t.climb.Ends (id, []) (t.ancestors id)
  comb : ∀ t ∈ env.program.trees, ∀ name pattern,
    (t.comb name).Ends [pattern] (Scope.binding? t name pattern)
  ascend : ∀ name, env.ascend.Ends (name, []) (env.bindingSite? name)

theorem searchesEnd (h : ∀ t ∈ env.program.trees, t.BottomUp) : env.SearchesEnd where
  climb t ht := (h t ht).climb_ends
  comb t ht := (h t ht).comb_ends
  ascend := ascend_ends h

end Env

end MoveTyping
