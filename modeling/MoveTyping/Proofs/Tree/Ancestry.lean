import MoveTyping.Proofs.Tree.Nesting

/-!
# The way up from a node

In a tree that is built bottom up the parent of a node is the last of the nodes that list it, and it
comes after the node. So the way up from a node passes ever larger places and ends at a root. The
first module on it is the one with the smallest place.

Nodes may be listed more than once. Then only one of the nodes that list them is on the way up.

## Main definitions

* `Tree.Ascent` — what is known about the way up from a node.

## Main results

* `Tree.BottomUp.climb_induction` — induction along the way up.
* `Tree.BottomUp.ancestry` — parents, and the way up from every node.
-/

namespace MoveTyping.Tree

variable {t : Tree} {c p m id : NodeId}

theorem mem_roots_iff : id ∈ t.roots ↔ id ∈ t.ids ∧ t.parent? id = none := by
  rw [roots_eq_filter, List.mem_filter, decide_eq_true_iff]

/-! ## The way up -/

/-- What holds of every node without a parent, and of every node whose parent it holds of, holds of
all nodes. -/
@[elab_as_elim]
theorem BottomUp.climb_induction (ht : t.BottomUp) {motive : NodeId → Prop}
    (top : ∀ id, t.parent? id = none → motive id)
    (up : ∀ id p, t.parent? id = some p → motive p → motive id) (id : NodeId) : motive id := by
  -- the way to the last place gets shorter
  induction hn : t.size - id.index using Nat.strongRecOn generalizing id with
  | ind n ih =>
    cases hp : t.parent? id with
    | none => exact top id hp
    | some p =>
      have hlt := ht.index_lt_of_parent? hp
      exact up id p hp (ih (t.size - p.index) (by omega) p rfl)

theorem BottomUp.isChain_ancestors (ht : t.BottomUp) (id : NodeId) :
    (id :: t.ancestors id).IsChain fun c p => t.parent? c = some p := by
  induction id using ht.climb_induction with
  | top id hp => simp [ancestors_of_none hp]
  | up id p hp ih =>
    rw [ht.ancestors_of_some hp]
    exact .cons_cons hp ih

theorem BottomUp.pairwise_ancestors (ht : t.BottomUp) (id : NodeId) :
    (id :: t.ancestors id).Pairwise fun a b => a.index < b.index := by
  induction id using ht.climb_induction with
  | top id hp => simp [ancestors_of_none hp]
  | up id p hp ih =>
    have hlt := (ht.index_lt_of_parent? hp).1
    rw [ht.ancestors_of_some hp]
    refine List.pairwise_cons.2 ⟨List.forall_mem_cons.2 ⟨hlt, fun a ha => ?_⟩, ih⟩
    exact Nat.lt_trans hlt ((List.pairwise_cons.1 ih).1 a ha)

theorem BottomUp.exists_root (ht : t.BottomUp) (hid : id ∈ t.ids) :
    ∃ root ∈ t.roots, (id :: t.ancestors id).getLast? = some root := by
  induction id using ht.climb_induction with
  | top id hp => exact ⟨id, mem_roots_iff.2 ⟨hid, hp⟩, by simp [ancestors_of_none hp]⟩
  | up id p hp ih =>
    obtain ⟨hlists, -⟩ := ht.parent?_eq_some_iff_last.1 hp
    obtain ⟨root, hroot, hlast⟩ := ih (mem_ids_of_mem_children hlists)
    exact ⟨root, hroot, by rw [ht.ancestors_of_some hp, List.getLast?_cons_cons, hlast]⟩

/-- Where places increase, the first node with a property is the one with the smallest place. -/
theorem find?_eq_some_iff_least {nodes : List NodeId} {q : NodeId → Bool}
    (hnodes : nodes.Pairwise fun a b => a.index < b.index) :
    nodes.find? q = some m ↔
      m ∈ nodes ∧ q m = true ∧ ∀ n ∈ nodes, q n = true → m.index ≤ n.index := by
  induction nodes with
  | nil => simp
  | cons a nodes ih =>
    obtain ⟨hfirst, hnodes⟩ := List.pairwise_cons.1 hnodes
    cases ha : q a with
    | true =>
      rw [List.find?_cons_of_pos ha, Option.some.injEq]
      constructor
      · rintro rfl
        refine ⟨List.mem_cons_self, ha, List.forall_mem_cons.2 ⟨fun _ => Nat.le_refl _, ?_⟩⟩
        exact fun n hn _ => Nat.le_of_lt (hfirst n hn)
      · rintro ⟨hm, -, hleast⟩
        rcases List.mem_cons.1 hm with rfl | hm
        · rfl
        · have hle := hleast a List.mem_cons_self ha
          have hlt := hfirst m hm
          omega
    | false =>
      have hne : q m = true → m ≠ a := by
        rintro hm rfl
        simp [ha] at hm
      rw [List.find?_cons_of_neg (by simp [ha]), ih hnodes]
      simp only [List.mem_cons, forall_eq_or_imp, ha]
      grind

/-- What is known about the way up from a node. -/
structure Ascent (t : Tree) (id : NodeId) : Prop where
  /-- Going from parent to parent comes to an end, and has passed the ancestors. -/
  ends : t.climb.Ends (id, []) (t.ancestors id)
  linked : (id :: t.ancestors id).IsChain fun c p => t.parent? c = some p
  increasing : (id :: t.ancestors id).Pairwise fun a b => a.index < b.index
  /-- The last node on the way is a root. -/
  root : id ∈ t.ids → ∃ root ∈ t.roots, (id :: t.ancestors id).getLast? = some root
  /-- The enclosing module is the module on the way with the smallest place. -/
  enclosing : ∀ m, t.enclosingModule? id = some m ↔
    m ∈ id :: t.ancestors id ∧ t.isModule m = true ∧
      ∀ n ∈ id :: t.ancestors id, t.isModule n = true → m.index ≤ n.index
  /-- There is none only if no node on the way is a module. -/
  outside : t.enclosingModule? id = none ↔ ∀ n ∈ id :: t.ancestors id, t.isModule n = false

theorem BottomUp.ascent (ht : t.BottomUp) (id : NodeId) : t.Ascent id where
  ends := ht.climb_ends id
  linked := ht.isChain_ancestors id
  increasing := ht.pairwise_ancestors id
  root := ht.exists_root
  enclosing _ := find?_eq_some_iff_least (ht.pairwise_ancestors id)
  outside := by simp only [enclosingModule?, List.find?_eq_none, Bool.not_eq_true]

/-- In a tree that is built bottom up every parent has a larger place than its child, and is the last
node that lists it. So the way up from any node ends, at a root, with places that increase on the
way, and the enclosing module is the module on the way with the smallest place. -/
theorem BottomUp.ancestry (ht : t.BottomUp) :
    (∀ c p, t.parent? c = some p → c.index < p.index) ∧
      (∀ c p, t.parent? c = some p ↔
        c ∈ t.children p ∧ ∀ q, c ∈ t.children q → q.index ≤ p.index) ∧
      ∀ id, t.Ascent id :=
  ⟨fun _ _ h => (ht.index_lt_of_parent? h).1, fun _ _ => ht.parent?_eq_some_iff_last, ht.ascent⟩

/-- A module within a module, with a literal that two expressions share. -/
def sharedLiteral : Tree := Build.tree 0 do
  let literal ← Build.node (.literal "1u8")
  let first ← Build.node (.unary .copy literal)
  let second ← Build.node (.unary .move literal)
  let body ← Build.block [second, first]
  let inner ← Build.module "0x1" "inner" [← Build.function "f" [] [] none body]
  Build.module "0x1" "outer" [inner]

/-- The later of the two expressions is the parent of the literal, although it is listed first. -/
theorem ancestry_sharedLiteral :
    sharedLiteral.BottomUp ∧ sharedLiteral.parent? ⟨0, 0⟩ = some ⟨0, 2⟩ ∧
      sharedLiteral.ancestors ⟨0, 0⟩ = [⟨0, 2⟩, ⟨0, 3⟩, ⟨0, 4⟩, ⟨0, 5⟩, ⟨0, 6⟩] ∧
      sharedLiteral.enclosingModule? ⟨0, 0⟩ = some ⟨0, 5⟩ := by
  have ht : sharedLiteral.BottomUp := by decide +kernel
  have hancestors : sharedLiteral.ancestors ⟨0, 0⟩ = [⟨0, 2⟩, ⟨0, 3⟩, ⟨0, 4⟩, ⟨0, 5⟩, ⟨0, 6⟩] := by
    decide +kernel
  obtain ⟨-, -, hascent⟩ := ht.ancestry
  refine ⟨ht, by decide +kernel, hancestors, ((hascent ⟨0, 0⟩).enclosing ⟨0, 5⟩).2 ?_⟩
  rw [hancestors]
  decide +kernel

end MoveTyping.Tree
