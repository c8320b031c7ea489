import MoveTyping.Proofs.Scope.Outline
import MoveTyping.Tree.Build

/-!
# What a file exports

The declarations of a file that full paths of other files can find: the first item of a name and a
space in the first module of a name and an address. Two trees of a file can stand for each other in
every program, as far as such paths tell, just if they export the same kinds of items under the same
names. If neither repeats a module or a name, that is to say that they declare the same.

The names alone do not settle it: they are the same for a function, a constant and a struct.

## Main definitions

* `Tree.exports?` — what a path finds in a tree.
* `Tree.declarations` — all declarations of a tree, with their kinds.
* `Tree.Interchangeable` — two trees that other files cannot tell apart by full paths.
-/

namespace MoveTyping

/-! ## Trees -/

namespace Tree

variable {t u : Tree} {aliases : Aliases} {address module name : String} {space : Space}
  {m item : NodeId}

/-- The first item of a module that declares `name`. -/
def item? (t : Tree) (m : NodeId) (name : String) (space : Space) : Option NodeId :=
  (t.items m).find? fun item => (t.kind? item).any (·.declares name space)

def describe? (t : Tree) (item : NodeId) : Option (String × ItemKind) :=
  (t.kind? item).bind NodeKind.declaration?

/-- Name and kind of what a full path finds in the tree. -/
def exports? (t : Tree) (aliases : Aliases) (address module name : String) (space : Space) :
    Option (String × ItemKind) :=
  ((t.findModule? aliases (some address) module).bind (t.item? · name space)).bind t.describe?

/-- The declarations of a tree: address in normal form, module, name and kind. -/
def declarations (t : Tree) (aliases : Aliases) : List (String × String × String × ItemKind) :=
  t.modules.flatMap fun m =>
    (t.identity? m).toList.flatMap fun (address, module) =>
      (t.items m).filterMap fun item =>
        (t.describe? item).map fun (name, kind) => (aliases.normalize address, module, name, kind)

theorem mem_declarations {kind : ItemKind} :
    (address, module, name, kind) ∈ t.declarations aliases ↔
      ∃ m ∈ t.modules, ∃ declared, t.identity? m = some (declared, module) ∧
        aliases.normalize declared = address ∧
        ∃ item ∈ t.items m, t.describe? item = some (name, kind) := by
  simp only [declarations, List.mem_flatMap, Option.mem_toList, List.mem_filterMap,
    Option.map_eq_some_iff, Prod.exists, Prod.mk.injEq]
  constructor
  · rintro ⟨m, hm, declared, module, hid, item, hitem, name, kind, hkind, rfl, rfl, rfl, rfl⟩
    exact ⟨m, hm, declared, hid, rfl, item, hitem, hkind⟩
  · rintro ⟨m, hm, declared, hid, rfl, item, hitem, hkind⟩
    exact ⟨m, hm, declared, module, hid, item, hitem, name, kind, hkind, rfl, rfl, rfl, rfl⟩

/-- No two modules have one name at one address, and no two declarations of one module have one name
in one space and different kinds. -/
structure Unambiguous (t : Tree) (aliases : Aliases) : Prop where
  modules : ∀ m ∈ t.modules, ∀ m' ∈ t.modules,
    (t.identity? m).map (fun i => (aliases.normalize i.1, i.2)) =
      (t.identity? m').map (fun i => (aliases.normalize i.1, i.2)) → m = m'
  kinds : ∀ d ∈ t.declarations aliases, ∀ d' ∈ t.declarations aliases,
    (d.1, d.2.1, d.2.2.1, d.2.2.2.space) = (d'.1, d'.2.1, d'.2.2.1, d'.2.2.2.space) → d = d'

instance (t : Tree) (aliases : Aliases) : Decidable (t.Unambiguous aliases) :=
  decidable_of_iff
    ((∀ m ∈ t.modules, ∀ m' ∈ t.modules,
      (t.identity? m).map (fun i => (aliases.normalize i.1, i.2)) =
        (t.identity? m').map (fun i => (aliases.normalize i.1, i.2)) → m = m') ∧
      ∀ d ∈ t.declarations aliases, ∀ d' ∈ t.declarations aliases,
        (d.1, d.2.1, d.2.2.1, d.2.2.2.space) = (d'.1, d'.2.1, d'.2.2.1, d'.2.2.2.space) → d = d')
    ⟨fun h => ⟨h.1, h.2⟩, fun h => ⟨h.modules, h.kinds⟩⟩

theorem findModule?_cases (h : t.findModule? aliases (some address) module = some m) :
    m ∈ t.modules ∧ ∃ declared, t.identity? m = some (declared, module) ∧
      aliases.normalize declared = aliases.normalize address := by
  refine ⟨mem_modules_of_findModule? h, ?_⟩
  have hm := List.find?_some h
  simp only [Option.any_eq_true, Bool.and_eq_true, decide_eq_true_eq, Option.all_some] at hm
  obtain ⟨⟨declared, name⟩, hid, rfl, haddress⟩ := hm
  exact ⟨declared, hid, haddress⟩

theorem item?_cases (h : t.item? m name space = some item) :
    item ∈ t.items m ∧ ∃ kind : ItemKind, t.describe? item = some (name, kind) ∧
      kind.space = space := by
  refine ⟨List.mem_of_find?_eq_some h, ?_⟩
  have hitem := List.find?_some h
  obtain ⟨node, hnode, hdeclares⟩ := (Option.any_eq_true ..).1 hitem
  obtain ⟨kind, hkind, hspace⟩ := NodeKind.declares_iff_declaration?.1 hdeclares
  exact ⟨kind, by rw [describe?, hnode, Option.bind_some, hkind], hspace⟩

/-- What is found is declared. -/
theorem exports?_cases {n : String} {kind : ItemKind}
    (h : t.exports? aliases address module name space = some (n, kind)) :
    n = name ∧ kind.space = space ∧
      (aliases.normalize address, module, name, kind) ∈ t.declarations aliases := by
  obtain ⟨item, hitem, hdescribe⟩ := Option.bind_eq_some_iff.1 h
  obtain ⟨m, hm, hitem⟩ := Option.bind_eq_some_iff.1 hitem
  obtain ⟨hmem, declared, hid, haddress⟩ := findModule?_cases hm
  obtain ⟨hin, kind', hkind, hspace⟩ := item?_cases hitem
  rw [hkind] at hdescribe
  obtain ⟨rfl, rfl⟩ := Prod.mk.inj (Option.some.inj hdescribe)
  exact ⟨rfl, hspace, mem_declarations.2 ⟨m, hmem, declared, hid, haddress, item, hin, hkind⟩⟩

/-- What is declared is found if the tree is unambiguous. -/
theorem Unambiguous.exports?_eq (h : t.Unambiguous aliases) {kind : ItemKind}
    (hd : (aliases.normalize address, module, name, kind) ∈ t.declarations aliases) :
    t.exports? aliases address module name kind.space = some (name, kind) := by
  obtain ⟨m, hm, declared, hid, haddress, item, hitem, hkind⟩ := mem_declarations.1 hd
  have hfind : t.findModule? aliases (some address) module = some m := by
    cases hfound : t.findModule? aliases (some address) module with
    | none =>
      refine absurd (List.find?_eq_none.1 hfound m hm) ?_
      simp [hid, haddress]
    | some m' =>
      obtain ⟨hm', declared', hid', haddress'⟩ := findModule?_cases hfound
      rw [h.modules m' hm' m hm (by simp [hid, hid', haddress, haddress'])]
  cases hfirst : t.item? m name kind.space with
  | none =>
    obtain ⟨node, hnode, hdeclaration⟩ := Option.bind_eq_some_iff.1 hkind
    refine absurd (List.find?_eq_none.1 hfirst item hitem) ?_
    rw [hnode, Option.any_some, not_not]
    exact NodeKind.declares_iff_declaration?.2 ⟨kind, hdeclaration, rfl⟩
  | some first =>
    obtain ⟨hin, kind', hkind', hspace⟩ := item?_cases hfirst
    have hd' : (aliases.normalize address, module, name, kind') ∈ t.declarations aliases :=
      mem_declarations.2 ⟨m, hm, declared, hid, haddress, first, hin, hkind'⟩
    have hsame := h.kinds _ hd' _ hd (by rw [hspace])
    simp only [Prod.mk.injEq, true_and] at hsame
    rw [exports?, hfind, Option.bind_some, hfirst, Option.bind_some, hkind', hsame]

/-- Unambiguous trees export the same just if they declare the same. -/
theorem Unambiguous.exports?_eq_iff (ht : t.Unambiguous aliases) (hu : u.Unambiguous aliases) :
    (∀ address module name space, u.exports? aliases address module name space =
        t.exports? aliases address module name space) ↔
      ∀ d, d ∈ t.declarations aliases ↔ d ∈ u.declarations aliases := by
  constructor
  · -- a declaration is found by a path that spells the address of its module
    have key : ∀ {t u : Tree}, t.Unambiguous aliases → (∀ address module name space,
        u.exports? aliases address module name space =
          t.exports? aliases address module name space) →
        ∀ d, d ∈ t.declarations aliases → d ∈ u.declarations aliases := by
      rintro t u ht h ⟨address, module, name, kind⟩ hd
      obtain ⟨m, -, declared, -, rfl, -⟩ := mem_declarations.1 hd
      exact (exports?_cases ((h ..).trans (ht.exports?_eq hd))).2.2
    exact fun h d => ⟨key ht h d, key hu (fun _ _ _ _ => (h ..).symm) d⟩
  · intro h address module name space
    refine Option.ext fun ⟨n, kind⟩ => ⟨fun hfound => ?_, fun hfound => ?_⟩
    · obtain ⟨rfl, rfl, hd⟩ := exports?_cases hfound
      exact ht.exports?_eq ((h _).2 hd)
    · obtain ⟨rfl, rfl, hd⟩ := exports?_cases hfound
      exact hu.exports?_eq ((h _).1 hd)

end Tree

/-! ## Paths -/

namespace Scope

variable {s s' : Scope} {t : Tree} {f : FileId} {r m d : NodeId} {address module name : String}
  {space : Space}

/-- Name and kind of an item of the program. -/
def describe? (s : Scope) (item : NodeId) : Option (String × ItemKind) :=
  (s.program.kind? item).bind NodeKind.declaration?

/-- A path finds a declaration in a file in both scopes or in neither, and then one of the same name
and kind. -/
structure FoundAlike (f : FileId) (s s' : Scope) (r : NodeId) (path : QName) (space : Space) :
    Prop where
  found : (∃ d, s.resolvePath? r path space = some d ∧ d.file = f) ↔
    ∃ d, s'.resolvePath? r path space = some d ∧ d.file = f
  same : ∀ d d', s.resolvePath? r path space = some d → d.file = f →
    s'.resolvePath? r path space = some d' → d'.file = f → s'.describe? d' = s.describe? d

/-- Name and kind of what a path finds in a file. -/
def foundIn? (s : Scope) (f : FileId) (r : NodeId) (path : QName) (space : Space) :
    Option (String × ItemKind) :=
  ((s.resolvePath? r path space).filter (·.file = f)).bind s.describe?

theorem foundIn?_eq_some_iff {path : QName} {e : String × ItemKind} :
    s.foundIn? f r path space = some e ↔
      ∃ d, s.resolvePath? r path space = some d ∧ d.file = f ∧ s.describe? d = some e := by
  simp [foundIn?, Option.bind_eq_some_iff, Option.filter_eq_some_iff, and_assoc]

theorem resolvePath?_full (hr : s.program.tree? r.file = some t) :
    s.resolvePath? r (.full address module name) space =
      s.member? (some address) module name space := by
  simp only [resolvePath?, hr, QName.full, targetModule?]
  rfl

theorem exists_describe? (hr : s.program.tree? r.file = some t)
    (hd : s.resolvePath? r (.full address module name) space = some d) :
    ∃ e, s.describe? d = some e := by
  rw [resolvePath?_full hr] at hd
  obtain ⟨m, -, hd⟩ := Option.bind_eq_some_iff.1 hd
  obtain ⟨kind, hkind, hdeclares⟩ := kind?_of_item? hd
  obtain ⟨k, hk, -⟩ := NodeKind.declares_iff_declaration?.1 hdeclares
  exact ⟨(name, k), by rw [describe?, hkind, Option.bind_some, hk]⟩

theorem foundAlike_iff {t' : Tree} (hr : s.program.tree? r.file = some t)
    (hr' : s'.program.tree? r.file = some t') :
    FoundAlike f s s' r (.full address module name) space ↔
      s'.foundIn? f r (.full address module name) space =
        s.foundIn? f r (.full address module name) space := by
  constructor
  · rintro ⟨hfound, hsame⟩
    refine Option.ext fun e => ?_
    rw [foundIn?_eq_some_iff, foundIn?_eq_some_iff]
    constructor
    · rintro ⟨d', hd', hfile', he⟩
      obtain ⟨d, hd, hfile⟩ := hfound.2 ⟨d', hd', hfile'⟩
      exact ⟨d, hd, hfile, (hsame d d' hd hfile hd' hfile').symm.trans he⟩
    · rintro ⟨d, hd, hfile, he⟩
      obtain ⟨d', hd', hfile'⟩ := hfound.1 ⟨d, hd, hfile⟩
      exact ⟨d', hd', hfile', (hsame d d' hd hfile hd' hfile').trans he⟩
  · intro h
    refine ⟨⟨?_, ?_⟩, ?_⟩
    · rintro ⟨d, hd, hfile⟩
      obtain ⟨e, he⟩ := exists_describe? hr hd
      obtain ⟨d', hd', hfile', -⟩ :=
        foundIn?_eq_some_iff.1 (h.trans (foundIn?_eq_some_iff.2 ⟨d, hd, hfile, he⟩))
      exact ⟨d', hd', hfile'⟩
    · rintro ⟨d', hd', hfile'⟩
      obtain ⟨e, he⟩ := exists_describe? hr' hd'
      obtain ⟨d, hd, hfile, -⟩ :=
        foundIn?_eq_some_iff.1 (h.symm.trans (foundIn?_eq_some_iff.2 ⟨d', hd', hfile', he⟩))
      exact ⟨d, hd, hfile⟩
    · intro d d' hd hfile hd' hfile'
      obtain ⟨e, he⟩ := exists_describe? hr hd
      obtain ⟨e', he'⟩ := exists_describe? hr' hd'
      rw [foundIn?_eq_some_iff.2 ⟨d, hd, hfile, he⟩,
        foundIn?_eq_some_iff.2 ⟨d', hd', hfile', he'⟩] at h
      rw [he, he', h]

/-! ## Programs -/

theorem item?_eq_tree (ht : s.program.tree? m.file = some t) (hclosed : t.Closed) :
    s.item? m name space = t.item? m name space := by
  rw [item?, Program.items_eq ht, Tree.item?, ← List.head?_filter, ← List.head?_filter]
  refine congrArg List.head? (List.filter_congr fun item hitem => ?_)
  rw [kind?_item ht hclosed hitem]

/-- The items of a module belong to its file. -/
theorem filter_item?_eq_none (hclosed : s.program.Closed) (hm : m.file ≠ f) :
    (s.item? m name space).filter (·.file = f) = none := by
  rw [Option.filter_eq_none_iff]
  intro d hd
  have hfile : d.file = m.file := hclosed.item (List.mem_of_find?_eq_some hd)
  simpa [hfile] using hm

/-- A full path finds in a file what its tree exports, unless a file in front of it has a module of
the same name. -/
theorem foundIn?_full {p : Program} {aliases : Aliases} {v : Tree} (hclosed : p.Closed)
    (ht : p.tree? t.file = some t) (hr : p.tree? r.file = some v) :
    (⟨p, aliases⟩ : Scope).foundIn? t.file r (.full address module name) space =
      ((p.trees.filter (·.file < t.file)).findSome?
        (·.findModule? aliases (some address) module)).elim
        (t.exports? aliases address module name space) fun _ => none := by
  have houtside : ∀ {m : NodeId}, m.file ≠ t.file →
      (((⟨p, aliases⟩ : Scope).item? m name space).filter (·.file = t.file)).bind
        (⟨p, aliases⟩ : Scope).describe? = none := by
    intro m hm
    rw [filter_item?_eq_none hclosed hm, Option.bind_none]
  rw [foundIn?, resolvePath?_full hr, member?, findModule?, Program.findModule?_eq,
    Program.trees_eq ht, List.findSome?_append, ← Program.trees_eq ht]
  cases hbefore : (p.trees.filter (·.file < t.file)).findSome?
      (·.findModule? aliases (some address) module) with
  | some m => exact houtside (p.file_ne_of_before hbefore)
  | none =>
    rw [Option.none_or, List.findSome?_cons, Option.elim_none, Tree.exports?]
    cases hown : t.findModule? aliases (some address) module with
    | some m =>
      have hm : m.file = t.file := Tree.file_of_mem_modules (Tree.mem_modules_of_findModule? hown)
      have htree : (⟨p, aliases⟩ : Scope).program.tree? m.file = some t := hm.symm ▸ ht
      have htclosed := hclosed.tree ht
      simp only [Option.bind_some, item?_eq_tree htree htclosed]
      cases hitem : t.item? m name space with
      | none => rfl
      | some d =>
        have hin : d ∈ t.items m := List.mem_of_find?_eq_some hitem
        simp only [Option.filter, htclosed.item hin, decide_true, if_true, Option.bind_some,
          describe?, kind?_item htree htclosed hin, Tree.describe?]
    | none =>
      cases hbehind : (p.trees.filter (t.file < ·.file)).findSome?
          (·.findModule? aliases (some address) module) with
      | some m => exact houtside (p.file_ne_of_behind hbehind)
      | none => rfl

end Scope

/-! ## Trees that stand for each other -/

namespace Program

variable {p : Program} {t u : Tree}

theorem Closed.insert (hp : p.Closed) (hu : u.Closed) : (p.insert u).Closed := fun v hv =>
  (mem_trees_insert hv).elim (fun h => h ▸ hu) (hp v)

theorem before_insert (p : Program) (u : Tree) :
    (p.insert u).trees.filter (·.file < u.file) = p.trees.filter (·.file < u.file) := by
  have hbehind : (p.trees.filter (u.file < ·.file)).filter (·.file < u.file) = [] := by
    refine List.filter_eq_nil_iff.2 fun v hv => ?_
    have hv : u.file < v.file := by simpa using (List.mem_filter.1 hv).2
    simpa using Nat.le_of_lt hv
  have hown : (u :: p.trees.filter (u.file < ·.file)).filter (·.file < u.file) = [] := by
    rw [List.filter_cons_of_neg (by simp), hbehind]
  rw [Program.insert, List.filter_append, hown, List.append_nil, List.filter_filter]
  simp

/-- A file with one node and no modules. -/
def bystander (f : FileId) : Tree := Build.tree f (Build.node .error)

theorem kind?_bystander (f : FileId) : (bystander f).kind? ⟨f, 0⟩ = some .error := by
  change (if f = f then some (⟨.error, .dummy⟩ : Node) else none).map Node.kind = _
  rw [if_pos rfl]
  rfl

theorem closed_bystander (f : FileId) : (bystander f).Closed := by
  intro id hid c hc
  obtain ⟨hfile, hindex⟩ := Arena.mem_ids.1 hid
  have hid : id = ⟨f, 0⟩ := congr (congrArg NodeId.mk hfile) (Nat.lt_one_iff.1 hindex)
  rw [hid, Arena.children, kind?_bystander] at hc
  cases hc

/-- A tree and another file behind it. -/
def withBystander (t : Tree) : Program := (empty.insert t).insert (bystander (t.file + 1))

theorem tree?_withBystander (t : Tree) : (withBystander t).tree? t.file = some t := by
  have hne : t.file ≠ (bystander (t.file + 1)).file := Nat.ne_of_lt (Nat.lt_succ_self _)
  rw [withBystander, tree?_insert, if_neg hne, tree?_insert, if_pos rfl]

theorem closed_withBystander (ht : t.Closed) : (withBystander t).Closed := by
  have hempty : empty.Closed := by simp [Program.Closed, empty]
  exact (hempty.insert ht).insert (closed_bystander _)

theorem contains_withBystander (t : Tree) :
    (withBystander t).contains ⟨t.file + 1, 0⟩ = true := by
  refine contains_of_kind? ((kind?_eq ?_).trans (kind?_bystander (t.file + 1)))
  rw [withBystander, tree?_insert]
  exact if_pos rfl

theorem before_withBystander (t : Tree) :
    (withBystander t).trees.filter (·.file < t.file) = [] := by
  refine List.filter_eq_nil_iff.2 fun v hv => ?_
  have hfile : t.file ≤ v.file := by
    rcases mem_trees_insert hv with rfl | hv
    · exact Nat.le_succ _
    · rcases mem_trees_insert hv with rfl | hv
      · exact Nat.le_refl _
      · cases hv
  simpa using hfile

end Program

namespace Tree

variable {t u : Tree} {aliases : Aliases}

/-- In every program one tree may take the place of the other: the full paths of other files find
declarations of the same names and kinds. -/
def Interchangeable (t u : Tree) (aliases : Aliases) : Prop :=
  ∀ p : Program, p.tree? t.file = some t → p.Closed →
    ∀ r, p.contains r = true → r.file ≠ t.file → ∀ address module name space,
      Scope.FoundAlike t.file ⟨p, aliases⟩ ⟨p.insert u, aliases⟩ r (.full address module name) space

/-- A path of another file finds the same in two trees if they export the same, and if nothing in
front of them hides them it tells them apart otherwise. -/
theorem foundAlike_insert {p : Program} (hfile : u.file = t.file) (ht : p.tree? t.file = some t)
    (hclosed : p.Closed) (hu : u.Closed) {r : NodeId} (hr : p.contains r = true)
    (hother : r.file ≠ t.file) {address module name : String} {space : Space} :
    Scope.FoundAlike t.file ⟨p, aliases⟩ ⟨p.insert u, aliases⟩ r (.full address module name)
        space ↔
      ((p.trees.filter (·.file < t.file)).findSome?
          (·.findModule? aliases (some address) module) = none →
        u.exports? aliases address module name space =
          t.exports? aliases address module name space) := by
  obtain ⟨v, hv⟩ := Program.mem_files.1 (Program.file_mem_files hr)
  have hv' : (p.insert u).tree? r.file = some v := by
    rw [Program.tree?_insert, if_neg (hfile ▸ hother), hv]
  have hu' : (p.insert u).tree? u.file = some u := by rw [Program.tree?_insert, if_pos rfl]
  have hold : (⟨p, aliases⟩ : Scope).foundIn? t.file r (.full address module name) space = _ :=
    Scope.foundIn?_full hclosed ht hv
  have hnew : (⟨p.insert u, aliases⟩ : Scope).foundIn? u.file r (.full address module name) space =
      _ := Scope.foundIn?_full (hclosed.insert hu) hu' hv'
  rw [p.before_insert u, hfile] at hnew
  refine (Scope.foundAlike_iff hv hv').trans ?_
  rw [hold, hnew]
  cases (p.trees.filter (·.file < t.file)).findSome?
      (·.findModule? aliases (some address) module) with
  | none => simp
  | some m => simp

theorem interchangeable_iff_exports? (hfile : u.file = t.file) (ht : t.Closed) (hu : u.Closed) :
    t.Interchangeable u aliases ↔ ∀ address module name space,
      u.exports? aliases address module name space =
        t.exports? aliases address module name space := by
  constructor
  · -- the paths of one other file, which comes behind, suffice to tell them apart
    intro h address module name space
    have hp := Program.tree?_withBystander t
    have hclosed := Program.closed_withBystander ht
    have hr := Program.contains_withBystander t
    have hother : t.file + 1 ≠ t.file := Nat.succ_ne_self _
    refine (foundAlike_insert hfile hp hclosed hu hr hother).1 (h _ hp hclosed _ hr hother ..) ?_
    rw [Program.before_withBystander]
    rfl
  · intro h p hp hclosed r hr hother address module name space
    exact (foundAlike_insert hfile hp hclosed hu hr hother).2 fun _ => h ..

/-- Two trees of a file stand for each other just if they export the same, which for unambiguous
trees is to declare the same. -/
theorem interchangeable_iff (hfile : u.file = t.file) (ht : t.Closed) (hu : u.Closed) :
    (t.Interchangeable u aliases ↔ ∀ address module name space,
      u.exports? aliases address module name space =
        t.exports? aliases address module name space) ∧
    (t.Unambiguous aliases → u.Unambiguous aliases →
      (t.Interchangeable u aliases ↔
        ∀ d, d ∈ t.declarations aliases ↔ d ∈ u.declarations aliases)) := by
  have hexports : t.Interchangeable u aliases ↔ _ := interchangeable_iff_exports? hfile ht hu
  exact ⟨hexports, fun htu huu => hexports.trans (htu.exports?_eq_iff huu)⟩

/-- A module with three items. -/
def shop : Tree := Build.tree 0 do
  let pay ← Build.function "pay" [] [] none none
  let fee ← Build.node (.const "fee" none none)
  let bill ← Build.struct "bill" [] [] []
  Build.module "0x5" "m" [pay, fee, bill]

/-- The items in another order. -/
def reorderedShop : Tree := Build.tree 0 do
  let bill ← Build.struct "bill" [] [] []
  let fee ← Build.node (.const "fee" none none)
  let pay ← Build.function "pay" [] [] none none
  Build.module "0x5" "m" [bill, fee, pay]

theorem interchangeable_iff_shop :
    shop.sameItems reorderedShop = true ∧ shop.Interchangeable reorderedShop .standard := by
  have hperm : (shop.declarations .standard).Perm (reorderedShop.declarations .standard) := by
    decide +kernel
  have hfile : reorderedShop.file = shop.file := rfl
  have hclosed : shop.Closed ∧ reorderedShop.Closed := by decide +kernel
  have hclear : shop.Unambiguous .standard ∧ reorderedShop.Unambiguous .standard := by
    decide +kernel
  refine ⟨by decide +kernel, ?_⟩
  exact ((interchangeable_iff hfile hclosed.1 hclosed.2).2 hclear.1 hclear.2).2 fun _ =>
    hperm.mem_iff

/-- A module with one item. -/
def single (item : Build NodeId) : Tree := Build.tree 0 do
  Build.module "0x5" "m" [← item]

def payFunction : Tree := single (Build.function "pay" [] [] none none)

def payConstant : Tree := single (Build.node (.const "pay" none none))

def payStruct : Tree := single (Build.struct "pay" [] [] [])

/-- A function may become a constant or a struct without a change of the names. -/
theorem sameItems_not_interchangeable :
    (payFunction.sameItems payConstant = true ∧
      ¬ payFunction.Interchangeable payConstant .standard) ∧
    (payFunction.sameItems payStruct = true ∧
      ¬ payFunction.Interchangeable payStruct .standard) := by
  have hfunction : payFunction.Closed := by decide +kernel
  have hconstant : payConstant.file = payFunction.file ∧ payConstant.Closed := by decide +kernel
  have hstruct : payStruct.file = payFunction.file ∧ payStruct.Closed := by decide +kernel
  refine ⟨⟨by decide +kernel, fun h => ?_⟩, by decide +kernel, fun h => ?_⟩
  · have hsame := (interchangeable_iff_exports? hconstant.1 hfunction hconstant.2).1 h
      "0x5" "m" "pay" .value
    exact absurd hsame (by decide +kernel)
  · have hsame := (interchangeable_iff_exports? hstruct.1 hfunction hstruct.2).1 h
      "0x5" "m" "pay" .value
    exact absurd hsame (by decide +kernel)

end Tree

end MoveTyping
