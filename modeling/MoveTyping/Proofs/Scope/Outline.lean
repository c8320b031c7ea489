import Mathlib.Data.List.Forall2
import MoveTyping.Proofs.Scope.Local

/-!
# Outlines

The outline of a tree is what other files see of it: its modules in their order, and the names that
each of them offers as values and as types. An edit that keeps the outline of a file is not noticed
by the references of other files, except that they find other nodes under the same names.

## Main definitions

* `NodeKind.declaration?`, `NodeKind.offer?` — what an item declares and offers to other files.
* `Tree.WellFormed` — nodes refer to their own file, and items belong to their module.
* `Tree.SameOutline` — two trees with the same outline.
* `Program.DistinctNames` — no two files have modules of one name.
-/

namespace MoveTyping

/-- The kinds of items that other modules can name. -/
inductive ItemKind where
  | function | constant | struct
deriving DecidableEq, Repr

def ItemKind.space : ItemKind → Space
  | function => .value
  | constant => .value
  | struct => .type

/-- Name and kind of an item. -/
def NodeKind.declaration? : NodeKind → Option (String × ItemKind)
  | .function name .. => some (name, .function)
  | .const name .. => some (name, .constant)
  | .struct name .. => some (name, .struct)
  | _ => none

theorem NodeKind.declares_iff_declaration? {kind : NodeKind} {name : String} {space : Space} :
    kind.declares name space = true ↔
      ∃ k, kind.declaration? = some (name, k) ∧ k.space = space := by
  cases kind <;> grind [declares, declaration?, ItemKind.space]

/-- The name that an item offers to other modules, and the space in which it is found. -/
def NodeKind.offer? (kind : NodeKind) : Option (Space × String) :=
  kind.declaration?.map fun d => (d.2.space, d.1)

theorem NodeKind.declares_iff {kind : NodeKind} {name : String} {space : Space} :
    kind.declares name space = true ↔ kind.offer? = some (space, name) := by
  rw [declares_iff_declaration?, offer?, Option.map_eq_some_iff]
  grind

theorem NodeKind.declaredName?_of_declares {kind : NodeKind} {name : String} {space : Space}
    (h : kind.declares name space = true) : kind.declaredName? = some name := by
  cases kind <;> simp_all [declares, declaredName?]

/-! ## Trees -/

namespace Tree

/-- Address and name of a module. -/
def identity? (t : Tree) (module : NodeId) : Option (String × String) :=
  match t.kind? module with
  | some (.module address name _) => some (address, name)
  | _ => none

/-- What the items of a module offer. -/
def offers (t : Tree) (module : NodeId) : List (Space × String) :=
  (t.items module).filterMap fun item => (t.kind? item).bind NodeKind.offer?

/-- The nodes of the tree refer to nodes of the same file, and an item of a module has the module
above it. -/
structure WellFormed (t : Tree) : Prop where
  closed : t.Closed
  owned : ∀ m ∈ t.modules, ∀ item ∈ t.items m, t.parent? item = some m

instance (t : Tree) : Decidable t.WellFormed :=
  decidable_of_iff
    (t.Closed ∧ ∀ m ∈ t.modules, ∀ item ∈ t.items m, t.parent? item = some m)
    ⟨fun h => ⟨h.1, h.2⟩, fun h => ⟨h.closed, h.owned⟩⟩

/-- The modules of the tree offer no types. -/
def ValuesOnly (t : Tree) : Prop := ∀ m ∈ t.modules, ∀ offer ∈ t.offers m, offer.1 = .value

instance (t : Tree) : Decidable t.ValuesOnly := by
  unfold ValuesOnly
  infer_instance

/-- Two modules have the same name and the same offers. -/
def SameModule (t u : Tree) (m m' : NodeId) : Prop :=
  u.identity? m' = t.identity? m ∧ (u.offers m').Perm (t.offers m)

instance (t u : Tree) (m m' : NodeId) : Decidable (t.SameModule u m m') :=
  inferInstanceAs (Decidable (_ ∧ _))

/-- The modules of two trees stand in the same order, with the same names and the same offers. -/
def SameOutline (t u : Tree) : Prop := List.Forall₂ (t.SameModule u) t.modules u.modules

instance (t u : Tree) : Decidable (t.SameOutline u) :=
  inferInstanceAs (Decidable (List.Forall₂ _ _ _))

/-- The module of this name at this address, where any address will do if none is given. -/
def findModule? (t : Tree) (aliases : Aliases) (address : Option String) (module : String) :
    Option NodeId :=
  t.modules.find? fun id =>
    (t.identity? id).any fun (declared, name) =>
      name = module && address.all fun a => aliases.normalize declared = aliases.normalize a

variable {t u : Tree} {aliases : Aliases} {address : Option String} {module : String}

theorem mem_modules_of_findModule? {m : NodeId}
    (h : t.findModule? aliases address module = some m) : m ∈ t.modules :=
  List.mem_of_find?_eq_some h

theorem Closed.item (h : t.Closed) {m item : NodeId} (hitem : item ∈ t.items m) :
    item.file = t.file := by
  unfold items at hitem
  split at hitem
  · next hk => exact h.child hk hitem
  · cases hitem

/-- Trees with the same outline have the same modules under a name. -/
theorem SameOutline.findModule? (h : t.SameOutline u) (aliases : Aliases)
    (address : Option String) (module : String) :
    (t.findModule? aliases address module = none ∧ u.findModule? aliases address module = none) ∨
      ∃ m m', t.findModule? aliases address module = some m ∧
        u.findModule? aliases address module = some m' ∧ t.SameModule u m m' := by
  unfold Tree.findModule?
  unfold SameOutline at h
  generalize t.modules = l at h ⊢
  generalize u.modules = l' at h ⊢
  induction h with
  | nil => exact .inl ⟨rfl, rfl⟩
  | @cons m m' l l' hm _ ih =>
    rw [List.find?_cons, List.find?_cons, hm.1]
    split
    · exact .inr ⟨m, m', rfl, rfl, hm⟩
    · exact ih

theorem SameOutline.valuesOnly (h : t.SameOutline u) (ht : t.ValuesOnly) : u.ValuesOnly := by
  unfold SameOutline at h
  unfold ValuesOnly at ht ⊢
  generalize t.modules = l at h ht
  generalize u.modules = l' at h ⊢
  induction h with
  | nil => simp
  | @cons m m' l l' hm _ ih =>
    simp only [List.forall_mem_cons] at ht ⊢
    exact ⟨fun offer hoffer => ht.1 offer (hm.2.mem_iff.1 hoffer), ih ht.2⟩

end Tree

/-! ## Modules of a program -/

namespace Program

variable {p : Program} {t : Tree} {m : NodeId}

theorem identity?_eq (h : p.tree? m.file = some t) : p.identity? m = t.identity? m := by
  rw [identity?, kind?_eq h]
  rfl

theorem items_eq (h : p.tree? m.file = some t) : p.items m = t.items m := by
  rw [items, kind?_eq h]
  simp only [list, h, Option.map_some, Option.getD_some]
  rfl

theorem findModule?_eq (p : Program) (aliases : Aliases) (address : Option String)
    (module : String) :
    p.findModule? aliases address module =
      p.trees.findSome? (·.findModule? aliases address module) := by
  rw [findModule?, modules, List.find?_flatMap, ← List.head?_filterMap, ← List.head?_filterMap]
  refine congrArg List.head? (List.filterMap_congr fun t ht => ?_)
  rw [Tree.findModule?, ← List.head?_filter, ← List.head?_filter]
  refine congrArg List.head? (List.filter_congr fun m hm => ?_)
  have hfile : p.tree? m.file = some t := Tree.file_of_mem_modules hm ▸ mem_trees.1 ht
  rw [identity?_eq hfile]

/-- No two files have modules of one name, at whatever addresses. -/
def DistinctNames (p : Program) : Prop :=
  ∀ m ∈ p.modules, ∀ m' ∈ p.modules,
    (p.identity? m).map Prod.snd = (p.identity? m').map Prod.snd → m.file = m'.file

theorem DistinctNames.distinctModules (h : p.DistinctNames) (aliases : Aliases) :
    p.DistinctModules aliases := by
  intro m hm m' hm' hkey
  refine h m hm m' hm' ?_
  have hnames := congrArg (Option.map Prod.snd) hkey
  simpa [moduleKey?, Option.map_map, Function.comp_def] using hnames

theorem mem_modules_of_findModule? {aliases : Aliases} {address : Option String} {module : String}
    (ht : t ∈ p.trees) (hm : t.findModule? aliases address module = some m) :
    m ∈ p.modules ∧ (p.identity? m).map Prod.snd = some module := by
  have hmt := Tree.mem_modules_of_findModule? hm
  have hfile : p.tree? m.file = some t := Tree.file_of_mem_modules hmt ▸ mem_trees.1 ht
  refine ⟨List.mem_flatMap.2 ⟨t, ht, hmt⟩, ?_⟩
  have hnamed := List.find?_some hm
  simp only [Option.any_eq_true, Bool.and_eq_true, decide_eq_true_eq] at hnamed
  obtain ⟨identity, hidentity, hname, -⟩ := hnamed
  rw [identity?_eq hfile, hidentity, Option.map_some, hname]

/-- The order in which the files are searched does not matter if no two of them have modules of one
name. Otherwise it does, for a name without an address. -/
theorem DistinctNames.findModule?_of_perm (h : p.DistinctNames) {trees : List Tree}
    (htrees : trees.Perm p.trees) (aliases : Aliases) (address : Option String)
    (module : String) :
    trees.findSome? (·.findModule? aliases address module) =
      p.findModule? aliases address module := by
  have hunique : ∀ t ∈ p.trees, ∀ u ∈ p.trees, ∀ m m',
      t.findModule? aliases address module = some m →
      u.findModule? aliases address module = some m' → t = u := by
    intro t ht u hu m m' hm hm'
    obtain ⟨hmem, hname⟩ := mem_modules_of_findModule? ht hm
    obtain ⟨hmem', hname'⟩ := mem_modules_of_findModule? hu hm'
    have hfile := h m hmem m' hmem' (hname.trans hname'.symm)
    rw [Tree.file_of_mem_modules (Tree.mem_modules_of_findModule? hm),
      Tree.file_of_mem_modules (Tree.mem_modules_of_findModule? hm')] at hfile
    have hsame := mem_trees.1 hu
    rw [← hfile, mem_trees.1 ht] at hsame
    exact Option.some.inj hsame
  -- what is found is what any of the trees has
  have hfound : ∀ l : List Tree, (∀ t ∈ l, t ∈ p.trees) → ∀ m,
      l.findSome? (·.findModule? aliases address module) = some m ↔
        ∃ t ∈ l, t.findModule? aliases address module = some m := by
    intro l hl m
    refine ⟨List.exists_of_findSome?_eq_some, ?_⟩
    rintro ⟨t, ht, hm⟩
    cases hm' : l.findSome? (·.findModule? aliases address module) with
    | none => simp [List.findSome?_eq_none_iff.1 hm' t ht] at hm
    | some m' =>
      obtain ⟨u, hu, hm'⟩ := List.exists_of_findSome?_eq_some hm'
      rw [← hm, ← hm', hunique t (hl t ht) u (hl u hu) m m' hm hm']
  rw [findModule?_eq]
  refine Option.ext fun m => ?_
  rw [hfound trees (fun t => htrees.mem_iff.1), hfound p.trees fun t => id]
  simp only [htrees.mem_iff]

/-- The trees in front of a file, its own tree and those behind it. -/
theorem trees_eq (h : p.tree? t.file = some t) :
    p.trees = p.trees.filter (·.file < t.file) ++ t :: p.trees.filter (t.file < ·.file) := by
  have hinsert : p.insert t = p := by
    refine ext_tree? fun g => ?_
    rw [tree?_insert]
    split
    · next hg => rw [hg, h]
    · rfl
  exact congrArg trees hinsert.symm

theorem files_insert {old : Tree} (hold : p.tree? t.file = some old) :
    (p.insert t).files = p.files := by
  have hfile : old.file = t.file := file_of_tree? hold
  have hsplit := trees_eq (hfile.symm ▸ hold)
  rw [hfile] at hsplit
  rw [files, files, hsplit, insert]
  simp [hfile]

theorem file_ne_of_findSome? {aliases : Aliases} {address : Option String} {module : String}
    {trees : List Tree} {f : FileId} (htrees : ∀ u ∈ trees, u.file ≠ f)
    (hm : trees.findSome? (·.findModule? aliases address module) = some m) : m.file ≠ f := by
  obtain ⟨u, hu, hm⟩ := List.exists_of_findSome?_eq_some hm
  rw [Tree.file_of_mem_modules (Tree.mem_modules_of_findModule? hm)]
  exact htrees u hu

theorem file_ne_of_before (p : Program) {aliases : Aliases} {address : Option String}
    {module : String} {f : FileId}
    (hm : (p.trees.filter (·.file < f)).findSome? (·.findModule? aliases address module) = some m) :
    m.file ≠ f :=
  file_ne_of_findSome? (fun _ hu => Nat.ne_of_lt (by simpa using (List.mem_filter.1 hu).2)) hm

theorem file_ne_of_behind (p : Program) {aliases : Aliases} {address : Option String}
    {module : String} {f : FileId}
    (hm : (p.trees.filter (f < ·.file)).findSome? (·.findModule? aliases address module) = some m) :
    m.file ≠ f :=
  file_ne_of_findSome? (fun _ hu => Nat.ne_of_gt (by simpa using (List.mem_filter.1 hu).2)) hm

/-- After an edit that keeps the outline of a file, the same module is found under a name, or one of
the file with the same offers. -/
theorem findModule?_insert {old : Tree} (hold : p.tree? t.file = some old)
    (houtline : old.SameOutline t) (aliases : Aliases) (address : Option String)
    (module : String) :
    ((p.insert t).findModule? aliases address module = p.findModule? aliases address module ∧
      ∀ m, p.findModule? aliases address module = some m → m.file ≠ t.file) ∨
    ∃ m m', p.findModule? aliases address module = some m ∧
      (p.insert t).findModule? aliases address module = some m' ∧
      m ∈ old.modules ∧ m' ∈ t.modules ∧ old.SameModule t m m' := by
  have hfile : old.file = t.file := file_of_tree? hold
  have hsplit := trees_eq (hfile.symm ▸ hold)
  rw [hfile] at hsplit
  rw [findModule?_eq, findModule?_eq, hsplit, insert, List.findSome?_append,
    List.findSome?_append]
  cases hfirst : (p.trees.filter (·.file < t.file)).findSome?
      (·.findModule? aliases address module) with
  | some m => exact .inl ⟨rfl, fun m' hm' => p.file_ne_of_before (hfirst.trans hm')⟩
  | none =>
    simp only [List.findSome?_cons, Option.none_or]
    rcases houtline.findModule? aliases address module with ⟨hm, hm'⟩ | ⟨m, m', hm, hm', hsame⟩
    · rw [hm, hm']
      exact .inl ⟨rfl, fun m => p.file_ne_of_behind⟩
    · rw [hm, hm']
      exact .inr ⟨m, m', rfl, rfl, Tree.mem_modules_of_findModule? hm,
        Tree.mem_modules_of_findModule? hm', hsame⟩

end Program

/-! ## Scopes -/

namespace Scope

variable {s : Scope} {t : Tree} {m d : NodeId} {name : String} {space : Space}

theorem kind?_item (ht : s.program.tree? m.file = some t) (hclosed : t.Closed) {item : NodeId}
    (hitem : item ∈ t.items m) : s.program.kind? item = t.kind? item := by
  have hfile : item.file = m.file := (hclosed.item hitem).trans (Program.file_of_tree? ht)
  exact Program.kind?_eq (hfile ▸ ht)

theorem item?_eq_none_iff (ht : s.program.tree? m.file = some t) (hclosed : t.Closed) :
    s.item? m name space = none ↔ (space, name) ∉ t.offers m := by
  simp only [item?, Program.items_eq ht, List.find?_eq_none, Tree.offers, List.mem_filterMap,
    not_exists, not_and]
  refine forall₂_congr fun item hitem => not_congr ?_
  rw [kind?_item ht hclosed hitem]
  cases t.kind? item with
  | none => simp
  | some kind => exact NodeKind.declares_iff

/-- The full name of an item is that of its module with its own name. -/
theorem fullName?_of_item? (ht : s.program.tree? m.file = some t) (hwf : t.WellFormed)
    (hm : m ∈ t.modules) (hd : s.item? m name space = some d) :
    s.program.fullName? d = (t.identity? m).map fun (address, module) => (address, module, name) := by
  obtain ⟨kind, hk, hdeclares⟩ := kind?_of_item? hd
  have hitem : d ∈ t.items m := Program.items_eq ht ▸ List.mem_of_find?_eq_some hd
  have hfile : d.file = m.file := (hwf.closed.item hitem).trans (Program.file_of_tree? ht)
  have hparent : s.program.parent? d = some m := by
    rw [Program.parent?, hfile, ht]
    exact hwf.owned m hm d hitem
  simp only [Program.fullName?, hk, NodeKind.declaredName?_of_declares hdeclares, hparent,
    Program.identity?_eq ht, Option.bind_eq_bind, Option.bind_some]
  cases t.identity? m <;> rfl

section ValuesOnly

variable {p : Program} {aliases : Aliases} {address : Option String} {module : String} {f : FileId}

/-- No type is found in a file whose modules offer none. -/
theorem file_ne_of_valuesOnly (ht : p.tree? f = some t) (hclosed : p.Closed)
    (hvalues : t.ValuesOnly)
    (hd : (⟨p, aliases⟩ : Scope).member? address module name .type = some d) : d.file ≠ f := by
  intro hfile
  obtain ⟨m, hm, hd⟩ := Option.bind_eq_some_iff.1 hd
  have hmfile : m.file = f :=
    (hclosed.item (List.mem_of_find?_eq_some hd)).symm.trans hfile
  have htree : (⟨p, aliases⟩ : Scope).program.tree? m.file = some t := hmfile ▸ ht
  have hmem : m ∈ t.modules := by
    have hm : p.findModule? aliases address module = some m := hm
    rw [Program.findModule?_eq] at hm
    obtain ⟨u, hu, hm⟩ := List.exists_of_findSome?_eq_some hm
    have hmu := Tree.mem_modules_of_findModule? hm
    have hu : p.tree? m.file = some u := Tree.file_of_mem_modules hmu ▸ Program.mem_trees.1 hu
    exact Option.some.inj (hu.symm.trans htree) ▸ hmu
  have hoffer : (Space.type, name) ∈ t.offers m := by
    by_contra hno
    simp [(item?_eq_none_iff htree (hclosed.tree ht)).2 hno] at hd
  exact nomatch hvalues m hmem _ hoffer

/-- No annotation of another file denotes a type of this file. -/
theorem resolve?_of_valuesOnly (ht : p.tree? f = some t) (hclosed : p.Closed)
    (hvalues : t.ValuesOnly) {r : NodeId} {path : QName} {args : Slice}
    (hk : p.kind? r = some (.typePath path args)) (hr : r.file ≠ f)
    (hd : (⟨p, aliases⟩ : Scope).resolve? r = some d) : d.file ≠ f := by
  rcases resolve?_cases hd with hfile | ⟨path', space, m, member, href, hm, hitem⟩
  · rw [hfile]
    exact hr
  · cases (reference?_typePath hk).symm.trans href
    rcases hm with hm | ⟨address, module, hm⟩
    · rw [hclosed.item (List.mem_of_find?_eq_some hitem), hm]
      exact hr
    · refine @file_ne_of_valuesOnly _ _ member p aliases address module f ht hclosed hvalues ?_
      rw [member?, hm, Option.bind_some, hitem]

end ValuesOnly

/-- Modules with the same name and the same offers, in two trees of a file, have corresponding
items. -/
theorem kept_item?_of_sameModule {s' : Scope} {old : Tree} {m' : NodeId}
    (hold : s.program.tree? m.file = some old) (hnew : s'.program.tree? m'.file = some t)
    (holdwf : old.WellFormed) (ht : t.WellFormed) (hfile : old.file = t.file)
    (hm : m ∈ old.modules) (hm' : m' ∈ t.modules) (hsame : old.SameModule t m m')
    (name : String) (space : Space) :
    Kept t.file (s.SameName s') (s.item? m name space) (s'.item? m' name space) := by
  have hoffer : (space, name) ∈ t.offers m' ↔ (space, name) ∈ old.offers m := hsame.2.mem_iff
  cases hd : s.item? m name space with
  | none =>
    have hnone := mt hoffer.1 ((item?_eq_none_iff hold holdwf.closed).1 hd)
    rw [(item?_eq_none_iff hnew ht.closed).2 hnone]
    exact .none
  | some d =>
    cases hd' : s'.item? m' name space with
    | none =>
      have hnone := mt hoffer.2 ((item?_eq_none_iff hnew ht.closed).1 hd')
      simp [(item?_eq_none_iff hold holdwf.closed).2 hnone] at hd
    | some d' =>
      have hitem : d ∈ old.items m := Program.items_eq hold ▸ List.mem_of_find?_eq_some hd
      have hitem' : d' ∈ t.items m' := Program.items_eq hnew ▸ List.mem_of_find?_eq_some hd'
      refine .inl ⟨d, d', rfl, rfl, (holdwf.closed.item hitem).trans hfile,
        ht.closed.item hitem', ?_⟩
      rw [SameName, fullName?_of_item? hold holdwf hm hd, fullName?_of_item? hnew ht hm' hd',
        hsame.1]

/-- After an edit that keeps the outline of a file, names have corresponding members. -/
theorem steady_insert {p : Program} {old : Tree} (hp : ∀ u ∈ p.trees, u.WellFormed)
    (ht : t.WellFormed) (hold : p.tree? t.file = some old) (houtline : old.SameOutline t)
    (aliases : Aliases) : Steady t.file ⟨p, aliases⟩ ⟨p.insert t, aliases⟩ := by
  have hdiffers := p.differsAt_insert t
  have hclosed : p.Closed := fun u hu => (hp u hu).closed
  have hnew : (p.insert t).tree? t.file = some t := by rw [Program.tree?_insert, if_pos rfl]
  have hfile : old.file = t.file := Program.file_of_tree? hold
  -- the trees of the modules that are found in the edited file
  have hatOld : ∀ m ∈ old.modules, p.tree? m.file = some old := fun m hm =>
    (Tree.file_of_mem_modules hm).trans hfile ▸ hold
  have hatNew : ∀ m ∈ t.modules, (p.insert t).tree? m.file = some t := fun m hm =>
    Tree.file_of_mem_modules hm ▸ hnew
  refine ⟨rfl, hdiffers, hclosed, fun address module name space => ?_, fun module => ?_⟩
  · unfold member?
    rcases Program.findModule?_insert hold houtline aliases address module with
      ⟨hsame, hout⟩ | ⟨m, m', hm, hm', hmem, hmem', hsame⟩
    · simp only [findModule?, hsame]
      cases hm : p.findModule? aliases address module with
      | none => exact .none
      | some m => exact kept_item? hdiffers hclosed (hout m hm)
    · simp only [findModule?, hm, hm', Option.bind_some]
      exact kept_item?_of_sameModule (hatOld m hmem) (hatNew m' hmem')
        (hp old (List.mem_of_find?_eq_some hold)) ht hfile hmem hmem' hsame name space
  · rcases Program.findModule?_insert hold houtline aliases none module with
      ⟨hsame, hout⟩ | ⟨m, m', hm, hm', hmem, hmem', hsame⟩
    · simp only [findModule?, hsame]
      cases hm : p.findModule? aliases none module with
      | none => rfl
      | some m => exact hdiffers.identity? (hout m hm)
    · simp only [findModule?, hm, hm', Option.bind_some]
      rw [Program.identity?_eq (hatOld m hmem), Program.identity?_eq (hatNew m' hmem'), hsame.1]

end Scope

end MoveTyping
