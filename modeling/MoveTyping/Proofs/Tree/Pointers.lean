import MoveTyping.Tree.Basic

/-!
# The table of parents

The links to parents are computed from the child lists by the places of the children, whatever file
a reference names. So the parent of a node is the last node that points to its place.

## Main definitions

* `Arena.Points` — a node refers to a place, in any file.

## Main results

* `Arena.parentTable_getElem?` — the table has the last node that points to a place.
* `Tree.parent?_eq_some_iff` — the parent is the last node that points to the place of a node.
-/

namespace MoveTyping

namespace Arena

variable {a : Arena} {parents : Array (Option NodeId)} {p : NodeId} {place : Nat}

/-! ## Nodes and places -/

theorem mem_ids {id : NodeId} : id ∈ a.ids ↔ id.file = a.file ∧ id.index < a.size := by
  simp only [ids, List.mem_map, List.mem_range]
  constructor
  · rintro ⟨i, hi, rfl⟩
    exact ⟨rfl, hi⟩
  · rintro ⟨hfile, hindex⟩
    exact ⟨id.index, hindex, by rw [← hfile]⟩

theorem mem_ids_of_kind? {id : NodeId} {kind : NodeKind} (h : a.kind? id = some kind) :
    id ∈ a.ids := by
  obtain ⟨n, hn, -⟩ := Option.map_eq_some_iff.1 h
  unfold node? at hn
  split at hn
  · next hfile => exact mem_ids.2 ⟨hfile, (Array.getElem?_eq_some_iff.1 hn).1⟩
  · cases hn

/-- The node refers to a node at this place, of any file. -/
def Points (a : Arena) (p : NodeId) (place : Nat) : Prop := ∃ c ∈ a.children p, c.index = place

instance (a : Arena) (p : NodeId) (place : Nat) : Decidable (a.Points p place) :=
  inferInstanceAs (Decidable (∃ c ∈ a.children p, c.index = place))

theorem points_of_mem {c : NodeId} (h : c ∈ a.children p) : a.Points p c.index := ⟨c, h, rfl⟩

/-- The nodes that point to a place, in their order. -/
def pointers (a : Arena) (place : Nat) : List NodeId := a.ids.filter (a.Points · place)

theorem mem_pointers : p ∈ a.pointers place ↔ p ∈ a.ids ∧ a.Points p place := by
  simp [pointers]

theorem size_adopt (a : Arena) (parents : Array (Option NodeId)) (p : NodeId) :
    (a.adopt parents p).size = parents.size := by
  unfold adopt
  generalize a.children p = children
  induction children generalizing parents with
  | nil => rfl
  | cons c children ih => rw [List.foldl_cons, ih, Array.size_setIfInBounds]

/-- A node takes over the places that it points to, and no others. -/
theorem getElem?_adopt (hplace : place < parents.size) :
    (a.adopt parents p)[place]? =
      if a.Points p place then some (some p) else parents[place]? := by
  have hfold : ∀ (children : List NodeId) (parents : Array (Option NodeId)), place < parents.size →
      (children.foldl (fun ps c => ps.setIfInBounds c.index (some p)) parents)[place]? =
        if ∃ c ∈ children, c.index = place then some (some p) else parents[place]? := by
    intro children
    induction children with
    | nil => simp
    | cons c children ih =>
      intro parents hplace
      rw [List.foldl_cons, ih _ (by simpa using hplace), Array.getElem?_setIfInBounds]
      by_cases hc : c.index = place
      · simp [hc, hplace]
      · simp [hc]
  exact hfold (a.children p) parents hplace

theorem getElem?_foldl_adopt (ids : List NodeId) (hplace : place < parents.size) :
    (ids.foldl a.adopt parents)[place]? =
      ((ids.filter (a.Points · place)).getLast?.map some).or parents[place]? := by
  induction ids generalizing parents with
  | nil => rfl
  | cons id ids ih =>
    rw [List.foldl_cons, ih (by rwa [size_adopt]), getElem?_adopt hplace, List.filter_cons]
    by_cases hid : a.Points id place
    · cases hlast : (ids.filter (a.Points · place)).getLast? <;>
        simp [hid, hlast, List.getLast?_cons]
    · simp [hid]

theorem size_parentTable (a : Arena) : a.parentTable.size = a.size := by
  have hfold : (a.ids.foldl a.adopt (Array.replicate a.size none)).size = a.size :=
    List.foldlRecOn (motive := fun parents => parents.size = a.size) a.ids _ (by simp)
      fun parents hsize id _ => (a.size_adopt parents id).trans hsize
  exact hfold

/-- The table has the last node that points to a place. -/
theorem parentTable_getElem? (hplace : place < a.size) :
    a.parentTable[place]? = some (a.pointers place).getLast? := by
  have hsize : place < (Array.replicate a.size (none : Option NodeId)).size := by simpa using hplace
  rw [parentTable, getElem?_foldl_adopt a.ids hsize, ← pointers]
  cases (a.pointers place).getLast? <;> simp [hplace]

theorem eq_of_index_eq {q : NodeId} (hp : p ∈ a.ids) (hq : q ∈ a.ids) (h : p.index = q.index) :
    p = q := by
  obtain ⟨file, index⟩ := p
  obtain ⟨file', index'⟩ := q
  obtain rfl : file = a.file := (mem_ids.1 hp).1
  obtain rfl : file' = a.file := (mem_ids.1 hq).1
  exact congrArg _ h

theorem pairwise_ids (a : Arena) : a.ids.Pairwise fun p q => p.index < q.index :=
  List.pairwise_map.2 List.pairwise_lt_range

/-- The last node that points to a place is the one with the largest place among them. -/
theorem getLast?_pointers_eq_some_iff :
    (a.pointers place).getLast? = some p ↔
      p ∈ a.ids ∧ a.Points p place ∧ ∀ q ∈ a.ids, a.Points q place → q.index ≤ p.index := by
  have hsorted : (a.pointers place).Pairwise fun p q => p.index < q.index :=
    a.pairwise_ids.filter _
  constructor
  · intro h
    obtain ⟨before, hsplit⟩ := List.getLast?_eq_some_iff.1 h
    obtain ⟨hid, hpoints⟩ := mem_pointers.1 (List.mem_of_getLast? h)
    refine ⟨hid, hpoints, fun q hq hqpoints => ?_⟩
    have hmem := mem_pointers.2 ⟨hq, hqpoints⟩
    rw [hsplit] at hmem hsorted
    rcases List.mem_append.1 hmem with hmem | hmem
    · exact Nat.le_of_lt ((List.pairwise_append.1 hsorted).2.2 q hmem p List.mem_cons_self)
    · exact Nat.le_of_eq (congrArg NodeId.index (List.mem_singleton.1 hmem))
  · rintro ⟨hid, hpoints, hlast⟩
    have hmem := mem_pointers.2 ⟨hid, hpoints⟩
    obtain ⟨q, hq⟩ : ∃ q, (a.pointers place).getLast? = some q :=
      Option.ne_none_iff_exists'.1 fun hnone => by
        rw [List.getLast?_eq_none_iff] at hnone
        simp [hnone] at hmem
    obtain ⟨before, hsplit⟩ := List.getLast?_eq_some_iff.1 hq
    have hqmem := mem_pointers.1 (List.mem_of_getLast? hq)
    have hle := hlast q hqmem.1 hqmem.2
    rw [hq]
    rw [hsplit] at hmem hsorted
    rcases List.mem_append.1 hmem with hmem | hmem
    · have hlt := (List.pairwise_append.1 hsorted).2.2 p hmem q List.mem_cons_self
      omega
    · rw [List.mem_singleton.1 hmem]

end Arena

/-! ## Parents -/

namespace Tree

variable {t : Tree} {c p : NodeId}

/-- The parent of a node is the last node that points to its place. -/
theorem parent?_eq_getLast? (hc : c ∈ t.ids) : t.parent? c = (t.pointers c.index).getLast? := by
  obtain ⟨hfile, hindex⟩ := Arena.mem_ids.1 hc
  rw [parent?, if_pos hfile, t.parents_eq, Arena.parentTable_getElem? hindex]
  rfl

theorem parent?_eq_some_iff (hc : c ∈ t.ids) :
    t.parent? c = some p ↔
      p ∈ t.ids ∧ t.Points p c.index ∧ ∀ q ∈ t.ids, t.Points q c.index → q.index ≤ p.index := by
  rw [parent?_eq_getLast? hc, Arena.getLast?_pointers_eq_some_iff]

theorem parent?_eq_none_iff (hc : c ∈ t.ids) :
    t.parent? c = none ↔ ∀ p ∈ t.ids, ¬t.Points p c.index := by
  rw [parent?_eq_getLast? hc, List.getLast?_eq_none_iff, List.eq_nil_iff_forall_not_mem]
  simp only [Arena.mem_pointers, not_and]

theorem mem_ids_of_parent? (h : t.parent? c = some p) : c ∈ t.ids := by
  unfold parent? at h
  split at h
  next hfile =>
    obtain ⟨hindex, -⟩ := Array.getElem?_eq_some_iff.1 (Option.join_eq_some_iff.1 h)
    rw [t.parents_eq, Arena.size_parentTable] at hindex
    exact Arena.mem_ids.2 ⟨hfile, hindex⟩
  · cases h

/-- A parent is a node that points to the place of its child. -/
theorem points_of_parent? (h : t.parent? c = some p) : p ∈ t.ids ∧ t.Points p c.index := by
  obtain ⟨hp, hpoints, -⟩ := (parent?_eq_some_iff (mem_ids_of_parent? h)).1 h
  exact ⟨hp, hpoints⟩

end Tree

end MoveTyping
