import Mathlib.Data.List.Nodup
import MoveTyping.Program
import MoveTyping.Proofs.Tree.Pointers

/-!
# Programs and their files

A program is determined by the tree of each file, and within a file the nodes above a node belong to
the same file. In the trees that are built from text the nodes below it do so as well.

## Main definitions

* `Tree.Closed` — the nodes of a tree refer to nodes of the same file.
* `Program.DistinctModules` — no module is declared by two files.
* `Program.DiffersAt` — two programs that differ in one file at most.
-/

namespace MoveTyping

/-! ## Nodes of one file -/

namespace Tree

variable {t : Tree} {id m : NodeId}

/-- The nodes of the tree refer to nodes of the same file only. -/
def Closed (t : Tree) : Prop := ∀ id ∈ t.ids, ∀ c ∈ t.children id, c.file = t.file

instance (t : Tree) : Decidable t.Closed := by
  unfold Closed
  infer_instance

theorem Closed.child (h : t.Closed) {kind : NodeKind} (hk : t.kind? id = some kind) {c : NodeId}
    (hc : c ∈ kind.children t.list) : c.file = t.file := by
  refine h id (Arena.mem_ids_of_kind? hk) c ?_
  rw [Arena.children, hk]
  exact hc

theorem file_of_kind? {kind : NodeKind} (h : t.kind? id = some kind) : id.file = t.file :=
  (Arena.mem_ids.1 (Arena.mem_ids_of_kind? h)).1

theorem file_of_parent? (h : t.parent? id = some m) : m.file = t.file :=
  (Arena.mem_ids.1 (points_of_parent? h).1).1

theorem file_of_mem_ancestors (h : m ∈ t.ancestors id) : m.file = t.file := by
  have hwithin : ∀ fuel id, m ∈ t.ancestorsWithin fuel id → m.file = t.file := by
    intro fuel
    induction fuel with
    | zero => intro id h; cases h
    | succ fuel ih =>
      intro id h
      rw [ancestorsWithin] at h
      cases hp : t.parent? id with
      | none => simp [hp] at h
      | some p =>
        rw [hp] at h
        rcases List.mem_cons.1 h with rfl | h
        · exact file_of_parent? hp
        · exact ih p h
  exact hwithin _ _ h

theorem file_of_enclosingModule? (h : t.enclosingModule? id = some m) : m.file = t.file := by
  have hm := List.find?_some h
  unfold isModule at hm
  cases hk : t.kind? m with
  | none => simp [hk] at hm
  | some kind => exact file_of_kind? hk

theorem file_of_mem_modules (h : m ∈ t.modules) : m.file = t.file := by
  have hm : m ∈ t.roots := (List.mem_filter.1 h).1
  rw [t.roots_eq] at hm
  exact (Arena.mem_ids.1 (List.mem_filter.1 hm).1).1

end Tree

/-! ## Programs by their files -/

namespace Program

theorem nodup_files (p : Program) : p.files.Nodup :=
  List.pairwise_map.2 (p.sorted.imp Nat.ne_of_lt)

theorem mem_files {p : Program} {f : FileId} : f ∈ p.files ↔ ∃ t, p.tree? f = some t := by
  simp only [files, tree?, List.mem_map, ← Option.isSome_iff_exists, List.find?_isSome,
    decide_eq_true_eq]

theorem mem_trees {p : Program} {t : Tree} : t ∈ p.trees ↔ p.tree? t.file = some t := by
  constructor
  · intro ht
    obtain ⟨u, hu⟩ := mem_files.1 (List.mem_map_of_mem ht)
    have hmem := List.mem_of_find?_eq_some hu
    have hfile : u.file = t.file := by simpa using List.find?_some hu
    rw [hu, List.inj_on_of_nodup_map p.nodup_files hmem ht hfile]
  · exact List.mem_of_find?_eq_some

theorem mem_trees_insert {p : Program} {t u : Tree} (h : u ∈ (p.insert t).trees) :
    u = t ∨ u ∈ p.trees := by
  rw [mem_trees, tree?_insert] at h
  split at h
  · exact .inl (Option.some.inj h).symm
  · exact .inr (mem_trees.2 h)

theorem mem_files_insert {p : Program} {t : Tree} {f : FileId} :
    f ∈ (p.insert t).files ↔ f = t.file ∨ f ∈ p.files := by
  rw [mem_files, mem_files, tree?_insert]
  split
  next h => simp [h]
  next h => simp [h]

theorem files_erase (p : Program) (f : FileId) : (p.erase f).files = p.files.filter (· ≠ f) := by
  simp only [files, erase, List.filter_map]
  rfl

/-- A program is determined by the tree of each file. -/
theorem ext_tree? {p q : Program} (h : ∀ f, p.tree? f = q.tree? f) : p = q := by
  have hnodup : ∀ r : Program, r.trees.Nodup := fun r => List.Nodup.of_map _ r.nodup_files
  have hperm : p.trees.Perm q.trees :=
    (List.perm_ext_iff_of_nodup (hnodup p) (hnodup q)).2 fun t => by rw [mem_trees, mem_trees, h]
  cases p
  cases q
  congr
  exact hperm.eq_of_pairwise (fun _ _ _ _ hab hba => absurd hba (Nat.lt_asymm hab)) ‹_› ‹_›

theorem erase_of_notMem {p : Program} {f : FileId} (hf : f ∉ p.files) : p.erase f = p := by
  refine ext_tree? fun g => ?_
  rw [tree?_erase]
  split
  · next h =>
    subst h
    exact (Option.eq_none_iff_forall_not_mem.2 fun t ht => hf (mem_files.2 ⟨t, ht⟩)).symm
  · rfl

theorem tree?_foldl_insert {trees : List Tree} (hnodup : (trees.map (·.file)).Nodup) (p : Program)
    (f : FileId) :
    (trees.foldl insert p).tree? f = (trees.find? (·.file = f)).or (p.tree? f) := by
  induction trees generalizing p with
  | nil => rfl
  | cons t trees ih =>
    obtain ⟨ht, hnodup⟩ := List.nodup_cons.1 hnodup
    rw [List.foldl_cons, ih hnodup, tree?_insert, List.find?_cons]
    by_cases hf : t.file = f
    · subst hf
      have : trees.find? (·.file = t.file) = none := by
        simp only [List.find?_eq_none, decide_eq_true_eq]
        exact fun u hu h => ht (List.mem_map.2 ⟨u, hu, h⟩)
      simp [this]
    · simp [hf, Ne.symm hf]

theorem nodup_of_perm {trees : List Tree} {p : Program} (h : trees.Perm p.trees) :
    (trees.map (·.file)).Nodup := (h.map _).nodup_iff.2 p.nodup_files

/-- Installing the trees of a program in any order gives the program. -/
theorem foldl_insert_eq {trees : List Tree} {p : Program} (h : trees.Perm p.trees) :
    trees.foldl insert empty = p := by
  refine ext_tree? fun f => ?_
  rw [tree?_foldl_insert (nodup_of_perm h)]
  simp only [tree?, empty, List.find?_nil, Option.or_none]
  cases hf : trees.find? (·.file = f) with
  | none =>
    rw [List.find?_eq_none] at hf
    exact (List.find?_eq_none.2 fun t ht => hf t (h.mem_iff.2 ht)).symm
  | some t =>
    have hfile : t.file = f := by simpa using List.find?_some hf
    subst hfile
    exact (mem_trees.1 (h.mem_iff.1 (List.mem_of_find?_eq_some hf))).symm

end Program

/-! ## Programs that differ in one file -/

namespace Program

variable {p p' : Program} {f g : FileId} {n m c : NodeId}

theorem file_of_tree? {t : Tree} (h : p.tree? f = some t) : t.file = f := by
  simpa using List.find?_some h

theorem kind?_eq {t : Tree} (h : p.tree? n.file = some t) : p.kind? n = t.kind? n := by
  simp [kind?, h]

theorem kind?_eq_some {kind : NodeKind} (h : p.kind? n = some kind) :
    ∃ t, p.tree? n.file = some t ∧ t.kind? n = some kind :=
  Option.bind_eq_some_iff.1 h

theorem contains_of_kind? {kind : NodeKind} (h : p.kind? n = some kind) : p.contains n = true := by
  obtain ⟨t, ht, hk⟩ := kind?_eq_some h
  obtain ⟨node, hnode, -⟩ := Option.map_eq_some_iff.1 hk
  simp [contains, ht, Arena.contains, hnode]

theorem file_mem_files (h : p.contains n = true) : n.file ∈ p.files := by
  cases ht : p.tree? n.file with
  | none => simp [contains, ht] at h
  | some t => exact mem_files.2 ⟨t, ht⟩

theorem file_of_parent? (h : p.parent? n = some m) : m.file = n.file := by
  obtain ⟨t, ht, hm⟩ := Option.bind_eq_some_iff.1 h
  exact (Tree.file_of_parent? hm).trans (file_of_tree? ht)

/-- The nodes of each file refer to nodes of the same file only. -/
def Closed (p : Program) : Prop := ∀ t ∈ p.trees, t.Closed

theorem Closed.tree (h : p.Closed) {t : Tree} (ht : p.tree? f = some t) : t.Closed :=
  h t (List.mem_of_find?_eq_some ht)

theorem Closed.child (h : p.Closed) {kind : NodeKind} (hk : p.kind? n = some kind)
    (hc : c ∈ kind.children (p.list n.file)) : c.file = n.file := by
  obtain ⟨t, ht, hk⟩ := kind?_eq_some hk
  have hlist : p.list n.file = t.list := by
    funext slice
    simp [list, ht]
  exact ((h.tree ht).child hk (hlist ▸ hc)).trans (file_of_tree? ht)

theorem Closed.item (h : p.Closed) (hc : c ∈ p.items m) : c.file = m.file := by
  unfold items at hc
  split at hc
  · next hk => exact h.child hk hc
  · cases hc

/-- Address, module and name of an item. -/
def fullName? (p : Program) (item : NodeId) : Option (String × String × String) := do
  let name ← (← p.kind? item).declaredName?
  let (address, module) ← p.identity? (← p.parent? item)
  return (address, module, name)

/-- Address and name of a module, with the address in normal form. -/
def moduleKey? (p : Program) (aliases : Aliases) (m : NodeId) : Option (String × String) :=
  (p.identity? m).map fun (address, name) => (aliases.normalize address, name)

/-- No module is declared by two files. -/
def DistinctModules (aliases : Aliases) (p : Program) : Prop :=
  ∀ m ∈ p.modules, ∀ m' ∈ p.modules,
    p.moduleKey? aliases m = p.moduleKey? aliases m' → m.file = m'.file

instance (aliases : Aliases) (p : Program) : Decidable (p.DistinctModules aliases) := by
  unfold DistinctModules
  infer_instance

theorem DistinctModules.mono {aliases : Aliases} {p p' : Program}
    (h : p'.DistinctModules aliases)
    (hsub : ∀ f t, p.tree? f = some t → p'.tree? f = some t) : p.DistinctModules aliases := by
  have hkeys : ∀ m ∈ p.modules,
      m ∈ p'.modules ∧ p'.moduleKey? aliases m = p.moduleKey? aliases m := by
    intro m hm
    obtain ⟨t, ht, hm⟩ := List.mem_flatMap.1 hm
    have ht := mem_trees.1 ht
    refine ⟨List.mem_flatMap.2 ⟨t, mem_trees.2 (hsub _ _ ht), hm⟩, ?_⟩
    rw [← Tree.file_of_mem_modules hm] at ht
    rw [moduleKey?, moduleKey?, identity?, identity?, kind?_eq ht, kind?_eq (hsub _ _ ht)]
  intro m hm m' hm' hkey
  obtain ⟨hm, hsame⟩ := hkeys m hm
  obtain ⟨hm', hsame'⟩ := hkeys m' hm'
  exact h m hm m' hm' (by rw [hsame, hsame', hkey])

/-- The trees of all files but one are the same. -/
def DiffersAt (f : FileId) (p p' : Program) : Prop := ∀ g, g ≠ f → p'.tree? g = p.tree? g

namespace DiffersAt

theorem kind? (h : DiffersAt f p p') (hn : n.file ≠ f) : p'.kind? n = p.kind? n := by
  rw [Program.kind?, h _ hn, Program.kind?]

theorem parent? (h : DiffersAt f p p') (hn : n.file ≠ f) : p'.parent? n = p.parent? n := by
  rw [Program.parent?, h _ hn, Program.parent?]

theorem contains (h : DiffersAt f p p') (hn : n.file ≠ f) : p'.contains n = p.contains n := by
  rw [Program.contains, h _ hn, Program.contains]

theorem list (h : DiffersAt f p p') (hg : g ≠ f) : p'.list g = p.list g := by
  funext slice
  rw [Program.list, h _ hg, Program.list]

theorem identity? (h : DiffersAt f p p') (hm : m.file ≠ f) : p'.identity? m = p.identity? m := by
  rw [Program.identity?, h.kind? hm, Program.identity?]

theorem items (h : DiffersAt f p p') (hm : m.file ≠ f) : p'.items m = p.items m := by
  rw [Program.items, h.kind? hm, h.list hm, Program.items]

end DiffersAt

theorem differsAt_insert (p : Program) (t : Tree) : p.DiffersAt t.file (p.insert t) := by
  intro g hg
  rw [tree?_insert, if_neg hg]

theorem differsAt_erase (p : Program) (f : FileId) : p.DiffersAt f (p.erase f) := by
  intro g hg
  rw [tree?_erase, if_neg hg]

end Program

end MoveTyping
