import Mathlib.Data.List.Nodup
import Mathlib.Data.List.Pairwise
import Mathlib.Logic.Relation
import MoveTyping.Proofs.Tree.Parents

/-!
# Nested trees

In a tree that is built bottom up and lists no node twice, parents and child lists say the same: the
parent of a node is the one node that lists it. So the nodes around a node form a chain, and of the
parts of a node at most one is around another node.

## Main definitions

* `Tree.Nested` — the trees.
* `Tree.Inside` — a node is another one or somewhere below it.

## Main results

* `Tree.BottomUp.parent?_eq_some_iff_last` — the parent of a node is the last node that lists it.
* `Tree.Nested.parent?_eq_some_iff_mem` — the parent of a node is the node that lists it.
* `Tree.Nested.part_unique` — a node is inside one part of another node only.
-/

namespace MoveTyping.Tree

variable {t : Tree} {a b c p q : NodeId}

/-- The tree is built bottom up, and each node occurs at most once as a child. -/
structure Nested (t : Tree) : Prop where
  bottomUp : t.BottomUp
  unshared : (t.ids.flatMap t.children).Nodup

instance (t : Tree) : Decidable t.Nested :=
  decidable_of_iff (t.BottomUp ∧ (t.ids.flatMap t.children).Nodup)
    ⟨fun h => ⟨h.1, h.2⟩, fun h => ⟨h.bottomUp, h.unshared⟩⟩

theorem exists_kind?_of_mem_children (h : c ∈ t.children p) : ∃ kind, t.kind? p = some kind := by
  cases hk : t.kind? p with
  | none => simp [Arena.children, hk] at h
  | some kind => exact ⟨kind, rfl⟩

theorem mem_ids_of_mem_children (h : c ∈ t.children p) : p ∈ t.ids := by
  obtain ⟨kind, hk⟩ := exists_kind?_of_mem_children h
  exact Arena.mem_ids_of_kind? hk

theorem BottomUp.mem_ids (ht : t.BottomUp) (h : c ∈ t.children p) : c ∈ t.ids := by
  have hp := mem_ids_of_mem_children h
  obtain ⟨hfile, hlt⟩ := ht p hp c h
  exact Arena.mem_ids.2 ⟨hfile, Nat.lt_trans hlt (Arena.mem_ids.1 hp).2⟩

theorem BottomUp.index_lt (ht : t.BottomUp) (h : c ∈ t.children p) : c.index < p.index :=
  (ht p (mem_ids_of_mem_children h) c h).2

theorem BottomUp.mem_ids_of_parent? (ht : t.BottomUp) (h : t.parent? c = some p) : c ∈ t.ids := by
  have hlt := ht.index_lt_of_parent? h
  have hfile : c.file = t.file := by
    unfold parent? at h
    split at h
    · assumption
    · cases h
  exact Arena.mem_ids.2 ⟨hfile, by omega⟩

/-- Where all references stay in the file, a node that points to the place of a node lists it. -/
theorem BottomUp.points_iff_mem (ht : t.BottomUp) (hc : c ∈ t.ids) :
    t.Points p c.index ↔ c ∈ t.children p := by
  constructor
  · rintro ⟨c', hc', hindex⟩
    exact Arena.eq_of_index_eq (ht.mem_ids hc') hc hindex ▸ hc'
  · exact Arena.points_of_mem

/-- The parent of a node is the last node that lists it. -/
theorem BottomUp.parent?_eq_some_iff_last (ht : t.BottomUp) :
    t.parent? c = some p ↔
      c ∈ t.children p ∧ ∀ q, c ∈ t.children q → q.index ≤ p.index := by
  constructor
  · intro h
    have hc := ht.mem_ids_of_parent? h
    obtain ⟨-, hpoints, hlast⟩ := (parent?_eq_some_iff hc).1 h
    refine ⟨(ht.points_iff_mem hc).1 hpoints, fun q hq => ?_⟩
    exact hlast q (mem_ids_of_mem_children hq) (Arena.points_of_mem hq)
  · rintro ⟨hp, hlast⟩
    have hc := ht.mem_ids hp
    refine (parent?_eq_some_iff hc).2 ⟨mem_ids_of_mem_children hp, Arena.points_of_mem hp, ?_⟩
    exact fun q _ hq => hlast q ((ht.points_iff_mem hc).1 hq)

/-! ## Nodes above a node -/

/-- More fuel than there are places above a node changes nothing. -/
theorem BottomUp.ancestorsWithin_succ (ht : t.BottomUp) (fuel : Nat) (id : NodeId)
    (hfuel : t.size ≤ id.index + fuel) :
    t.ancestorsWithin (fuel + 1) id = t.ancestorsWithin fuel id := by
  induction fuel generalizing id with
  | zero =>
    cases hp : t.parent? id with
    | none => simp [ancestorsWithin, hp]
    | some m =>
      have := ht.index_lt_of_parent? hp
      omega
  | succ fuel ih =>
    rw [ancestorsWithin, ancestorsWithin]
    cases hp : t.parent? id with
    | none => rfl
    | some m =>
      have := ht.index_lt_of_parent? hp
      exact congrArg (m :: ·) (ih m (by omega))

theorem ancestors_of_none (hp : t.parent? c = none) : t.ancestors c = [] := by
  unfold ancestors
  cases t.size <;> simp [ancestorsWithin, hp]

/-- The nodes above a node are its parent and the nodes above that. -/
theorem BottomUp.ancestors_of_some (ht : t.BottomUp) (hp : t.parent? c = some p) :
    t.ancestors c = p :: t.ancestors p := by
  have hlt := ht.index_lt_of_parent? hp
  unfold ancestors
  rw [← ht.ancestorsWithin_succ t.size c (Nat.le_add_left _ _), ancestorsWithin, hp]

namespace Nested

variable (ht : t.Nested)

include ht

/-- Two nodes do not list the same node. -/
theorem parent_unique (hp : c ∈ t.children p) (hq : c ∈ t.children q) : p = q := by
  by_contra hne
  have : Std.Symm (Function.onFun List.Disjoint t.children) := ⟨fun _ _ h _ hc hc' => h hc' hc⟩
  have hdisjoint := (List.nodup_flatMap.1 ht.unshared).2.forall (mem_ids_of_mem_children hp)
    (mem_ids_of_mem_children hq) hne
  exact hdisjoint hp hq

theorem nodup_children (p : NodeId) : (t.children p).Nodup := by
  by_cases hp : p ∈ t.ids
  · exact (List.nodup_flatMap.1 ht.unshared).1 p hp
  · have hnil : t.children p = [] :=
      List.eq_nil_iff_forall_not_mem.2 fun c hc => hp (mem_ids_of_mem_children hc)
    simp [hnil]

/-- The parent of a node is the node that lists it. -/
theorem parent?_eq_some_iff_mem : t.parent? c = some p ↔ c ∈ t.children p := by
  rw [ht.bottomUp.parent?_eq_some_iff_last]
  refine ⟨And.left, fun hp => ⟨hp, fun q hq => ?_⟩⟩
  exact Nat.le_of_eq (congrArg NodeId.index (ht.parent_unique hq hp))

end Nested

/-! ## Inside and outside -/

/-- The first node is the second one or somewhere below it. -/
def Inside (t : Tree) : NodeId → NodeId → Prop := Relation.ReflTransGen fun c p => c ∈ t.children p

theorem Inside.refl (t : Tree) (a : NodeId) : t.Inside a a := Relation.ReflTransGen.refl

theorem Inside.of_mem (h : c ∈ t.children p) : t.Inside c p := Relation.ReflTransGen.single h

theorem Inside.trans (h : t.Inside a b) (h' : t.Inside b c) : t.Inside a c :=
  Relation.ReflTransGen.trans h h'

theorem Inside.index_le (h : t.Inside a b) (ht : t.BottomUp) : a.index ≤ b.index := by
  induction h with
  | refl => exact Nat.le_refl _
  | tail _ hstep ih =>
    have := ht.index_lt hstep
    omega

/-- A node inside another one is this node or inside one of its parts. -/
theorem Inside.eq_or_exists (h : t.Inside a p) : a = p ∨ ∃ c ∈ t.children p, t.Inside a c := by
  rcases Relation.ReflTransGen.cases_tail h with heq | ⟨c, hc, hstep⟩
  · exact .inl heq.symm
  · exact .inr ⟨c, hstep, hc⟩

theorem Inside.antisymm (h : t.Inside a b) (h' : t.Inside b a) (ht : t.BottomUp) : a = b := by
  rcases h.eq_or_exists with heq | ⟨c, hc, hac⟩
  · exact heq
  · have hlt := ht.index_lt hc
    have hle := hac.index_le ht
    have hge := h'.index_le ht
    omega

namespace Nested

variable (ht : t.Nested)

include ht

/-- The nodes around a node form a chain. -/
theorem inside_total (ha : t.Inside c a) (hb : t.Inside c b) : t.Inside a b ∨ t.Inside b a :=
  Relation.ReflTransGen.total_of_right_unique (fun _ _ _ hp hq => ht.parent_unique hp hq) ha hb

/-- What is around a node and not the node itself is around its parent. -/
theorem inside_parent (h : t.Inside c a) (hne : c ≠ a) (hp : c ∈ t.children p) : t.Inside p a := by
  rcases Relation.ReflTransGen.cases_head h with heq | ⟨q, hq, hrest⟩
  · exact absurd heq hne
  · exact ht.parent_unique hp hq ▸ hrest

/-- A node is inside one part of another node only. -/
theorem part_unique (ha : a ∈ t.children p) (hb : b ∈ t.children p) (hca : t.Inside c a)
    (hcb : t.Inside c b) : a = b := by
  have hnested : ∀ {a b}, a ∈ t.children p → b ∈ t.children p → t.Inside a b → a = b := by
    intro a b ha hb hab
    by_contra hne
    have hle := (ht.inside_parent hab hne ha).index_le ht.bottomUp
    have hlt := ht.bottomUp.index_lt hb
    omega
  rcases ht.inside_total hca hcb with h | h
  · exact hnested ha hb h
  · exact (hnested hb ha h).symm

end Nested

end MoveTyping.Tree
