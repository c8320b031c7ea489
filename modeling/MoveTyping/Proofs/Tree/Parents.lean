import MoveTyping.Tree.Build
import MoveTyping.Proofs.Tree.BottomUp

/-!
# Parents and child lists

The parent of a node is the last node that points to its place. Where a reference names another
file, the node at the same place of this file gets a parent that does not list it, unless a later
node lists it after all.

## Main definitions

* `Tree.Linked` — the links to parents match the child lists.

## Main results

* `Tree.linked_iff_recovered` — the links match unless a reference to another file is the last one
  to lead to some place.
-/

namespace MoveTyping

/-! ## The links of a tree -/

namespace Tree

variable {t : Tree} {c p : NodeId}

/-- The roots are the nodes without a parent, in their order. -/
theorem roots_eq_filter (t : Tree) : t.roots = t.ids.filter fun c => t.parent? c = none := by
  rw [t.roots_eq]
  refine List.filter_congr fun c hc => ?_
  rw [Bool.eq_iff_iff]
  simp [parent?, (Arena.mem_ids.1 hc).1]

/-- The links to parents match the child lists: a parent lists its children, and a node has no
parent exactly when no node lists it. -/
structure Linked (t : Tree) : Prop where
  listed : ∀ c ∈ t.ids, ∀ p ∈ t.ids, t.parent? c = some p → c ∈ t.children p
  orphan : ∀ c ∈ t.ids, t.parent? c = none ↔ ∀ p ∈ t.ids, c ∉ t.children p

/-- A node at a place to which a reference to another file leads is listed by the node with this
reference or by a later one. -/
def Recovered (t : Tree) : Prop :=
  ∀ p ∈ t.ids, ∀ c ∈ t.children p, c.file ≠ t.file → c.index < t.size →
    ∃ q ∈ t.ids, p.index ≤ q.index ∧ ⟨t.file, c.index⟩ ∈ t.children q

instance (t : Tree) : Decidable t.Recovered := by
  unfold Recovered
  infer_instance

/-- The last node that points to the place of a node lists it. -/
theorem Recovered.listed (h : t.Recovered) (hc : c ∈ t.ids) (hp : t.parent? c = some p) :
    c ∈ t.children p := by
  obtain ⟨hid, ⟨c', hc', hplace⟩, hlast⟩ := (parent?_eq_some_iff hc).1 hp
  obtain ⟨hfile, hindex⟩ := Arena.mem_ids.1 hc
  have hnode : (⟨t.file, c'.index⟩ : NodeId) = c := by rw [hplace, ← hfile]
  by_cases hforeign : c'.file = t.file
  · rw [← hnode, ← hforeign]
    exact hc'
  · obtain ⟨q, hq, hle, hmem⟩ := h p hid c' hc' hforeign (hplace ▸ hindex)
    rw [hnode] at hmem
    -- the node that lists `c` points to its place, so it is not after the parent
    have hge := hlast q hq (Arena.points_of_mem hmem)
    exact Arena.eq_of_index_eq hq hid (Nat.le_antisymm hge hle) ▸ hmem

theorem recovered_of_listed
    (h : ∀ c ∈ t.ids, ∀ p ∈ t.ids, t.parent? c = some p → c ∈ t.children p) : t.Recovered := by
  intro p hp c hc _ hindex
  have hnode : (⟨t.file, c.index⟩ : NodeId) ∈ t.ids := Arena.mem_ids.2 ⟨rfl, hindex⟩
  have hpoints := Arena.points_of_mem hc
  cases hparent : t.parent? ⟨t.file, c.index⟩ with
  | none => exact absurd hpoints ((parent?_eq_none_iff hnode).1 hparent p hp)
  | some q =>
    obtain ⟨hq, -, hlast⟩ := (parent?_eq_some_iff hnode).1 hparent
    exact ⟨q, hq, hlast p hp hpoints, h _ hnode q hq hparent⟩

/-- If parents list their children, then a node has no parent exactly when no node lists it. -/
theorem orphan_iff_of_listed (h : ∀ p ∈ t.ids, t.parent? c = some p → c ∈ t.children p)
    (hc : c ∈ t.ids) : t.parent? c = none ↔ ∀ p ∈ t.ids, c ∉ t.children p := by
  constructor
  · intro hnone p hp hmem
    exact (parent?_eq_none_iff hc).1 hnone p hp (Arena.points_of_mem hmem)
  · intro hunlisted
    refine Option.eq_none_iff_forall_ne_some.2 fun p hp => ?_
    have hid := ((parent?_eq_some_iff hc).1 hp).1
    exact hunlisted p hid (h p hid hp)

theorem linked_iff_recovered (t : Tree) : t.Linked ↔ t.Recovered := by
  constructor
  · exact fun h => recovered_of_listed h.listed
  · intro h
    exact ⟨fun c hc p _ hp => h.listed hc hp,
      fun c hc => orphan_iff_of_listed (fun p _ hp => h.listed hc hp) hc⟩

/-- Where all references stay in the file, the links match the child lists. -/
theorem Closed.linked (h : t.Closed) : t.Linked :=
  t.linked_iff_recovered.2 fun p hp c hc hforeign => absurd (h p hp c hc) hforeign

/-- For every tree the parent of a node is the last node that points to its place, and the roots are
the nodes without a parent in their order. Parents list their children, and only nodes that no node
lists are without a parent, exactly when every node at a place to which a reference to another file
leads is listed by the node with this reference or by a later one. -/
theorem links_of_child_lists (t : Tree) :
    (∀ c ∈ t.ids, ∀ p, t.parent? c = some p ↔
        p ∈ t.ids ∧ t.Points p c.index ∧ ∀ q ∈ t.ids, t.Points q c.index → q.index ≤ p.index) ∧
      (t.roots = t.ids.filter fun c => t.parent? c = none) ∧ (t.Linked ↔ t.Recovered) :=
  ⟨fun _ hc _ => parent?_eq_some_iff hc, t.roots_eq_filter, t.linked_iff_recovered⟩

/-- A literal, and an expression over the first node of another file. -/
def straySource : Tree := Build.tree 0 do
  let _ ← Build.node (.literal "1u8")
  Build.node (.unary .move ⟨1, 0⟩)

/-- The expression is the parent of the literal, which no node lists. -/
theorem unlisted_has_parent :
    straySource.parent? ⟨0, 0⟩ = some ⟨0, 1⟩ ∧ ⟨0, 0⟩ ∉ straySource.children ⟨0, 1⟩ ∧
      (∀ p ∈ straySource.ids, ⟨0, 0⟩ ∉ straySource.children p) ∧ ¬straySource.Linked := by
  have hstray : ¬straySource.Recovered := by decide
  exact ⟨by decide, by decide, by decide, fun h => hstray ((linked_iff_recovered _).1 h)⟩

end Tree

end MoveTyping
