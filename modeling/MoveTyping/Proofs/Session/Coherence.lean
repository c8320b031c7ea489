import MoveTyping.Proofs.Infer.Rules
import MoveTyping.Proofs.Session.Index
import MoveTyping.Proofs.Session.Queries

/-!
# Coherence

A session is coherent if whatever its cache serves is derived from the current trees, and if its
index is that of the current trees. After an edit of a file the session stays coherent, provided
that the edit is not felt beyond the files that read this file. There is one way in which it can be:
a derivation may come to the record of a struct without a reading of the file that declares it.

## Main definitions

* `Env.Reported` — whoever asks for a record that an edit changes reads the file.
* `Session.Coherent` — the cache and the index are those of the current trees.
-/

namespace MoveTyping

/-! ## Names of structs -/

namespace Program

variable {p : Program} {m d : NodeId} {name : String}

/-- Whether a node is a struct of this name. -/
def isStruct (p : Program) (name : String) (d : NodeId) : Bool :=
  match p.kind? d with
  | some (.struct declared ..) => declared = name
  | _ => false

theorem isStruct_iff {declared : String} (h : p.isStruct declared d = true) :
    p.isStruct name d = true ↔ declared = name := by
  unfold isStruct at h ⊢
  split at h
  · simp_all
  · cases h

theorem items_of_mem_modules (hm : m ∈ p.modules) :
    ∃ t ∈ p.trees, m ∈ t.modules ∧ p.tree? m.file = some t ∧ p.items m = t.items m := by
  obtain ⟨t, ht, hmt⟩ := List.mem_flatMap.1 hm
  have htree : p.tree? m.file = some t := Tree.file_of_mem_modules hmt ▸ mem_trees.1 ht
  exact ⟨t, ht, hmt, htree, items_eq htree⟩

end Program

namespace Env

variable {p : Program} {catalog : Catalog} {q : QName} {f g : FileId} {env env' : Env}
  {m d : NodeId} {name : String} {r : Record}

theorem declaredRecords_eq_nil (h : env.program.tree? f = none) : env.declaredRecords f = [] := by
  rw [declaredRecords, h]

/-- A struct has a record, named after the module and the struct. -/
theorem structRecord?_of_mem_items (hp : ∀ t ∈ p.trees, t.WellFormed) (hm : m ∈ p.modules)
    (hd : d ∈ p.items m) (hstruct : p.isStruct name d = true) :
    ((ofProgram p catalog).structRecord? d).map Record.name =
      (p.moduleKey? catalog.aliases m).map fun key => .full key.1 key.2 name := by
  obtain ⟨t, ht, hmt, htree, hitems⟩ := Program.items_of_mem_modules hm
  rw [hitems] at hd
  have hfile : d.file = m.file :=
    ((hp t ht).closed.item hd).trans (Tree.file_of_mem_modules hmt).symm
  have hparent : p.parent? d = some m := by
    rw [Program.parent?, hfile, htree]
    exact (hp t ht).owned m hmt d hd
  have hprogram : (ofProgram p catalog).program = p := rfl
  unfold Program.isStruct at hstruct
  unfold structRecord?
  rw [hprogram]
  split at hstruct
  · next hk =>
    simp only [decide_eq_true_eq] at hstruct
    subst hstruct
    simp only [hk, itemName?_ofProgram, Program.fullName?, hparent, Program.moduleKey?,
      Option.bind_eq_bind, Option.bind_some, NodeKind.declaredName?]
    cases p.identity? m <;> rfl
  · cases hstruct

theorem exists_isStruct (h : (ofProgram p catalog).structRecord? d = some r) :
    ∃ name, p.isStruct name d = true := by
  unfold structRecord? at h
  split at h
  · next name _ _ _ _ hk =>
    refine ⟨name, ?_⟩
    have hk : p.kind? d = _ := hk
    simp [Program.isStruct, hk]
  · cases h

/-- The name of a struct is made of the name of its module and its own. -/
theorem moduleKey?_of_mem_declaredNames (hp : ∀ t ∈ p.trees, t.WellFormed)
    (hq : q ∈ (ofProgram p catalog).declaredNames g) :
    ∃ m ∈ p.modules, m.file = g ∧ ∃ address module name,
      p.moduleKey? catalog.aliases m = some (address, module) ∧ q = .full address module name := by
  obtain ⟨r, hr, rfl⟩ := List.mem_map.1 hq
  unfold declaredRecords at hr
  split at hr
  · next t ht =>
    have ht : p.tree? g = some t := ht
    obtain ⟨d, hd, hr⟩ := List.mem_filterMap.1 hr
    obtain ⟨m, hm, hd⟩ := List.mem_flatMap.1 hd
    have hfile : m.file = g := (Tree.file_of_mem_modules hm).trans (Program.file_of_tree? ht)
    have hmodule : m ∈ p.modules := List.mem_flatMap.2 ⟨t, List.mem_of_find?_eq_some ht, hm⟩
    obtain ⟨name, hstruct⟩ := exists_isStruct hr
    have hitem : d ∈ p.items m := by
      rw [Program.items_eq (hfile.symm ▸ ht)]
      exact hd
    have hname := @structRecord?_of_mem_items p catalog m d name hp hmodule hitem hstruct
    rw [hr, Option.map_some, eq_comm, Option.map_eq_some_iff] at hname
    obtain ⟨key, hkey, hname⟩ := hname
    exact ⟨m, hmodule, hfile, key.1, key.2, name, hkey, hname.symm⟩
  · cases hr

/-- A struct is declared by one file only. -/
theorem file_unique (hp : ∀ t ∈ p.trees, t.WellFormed)
    (hdistinct : p.DistinctModules catalog.aliases) {g' : FileId}
    (hq : q ∈ (ofProgram p catalog).declaredNames g)
    (hq' : q ∈ (ofProgram p catalog).declaredNames g') : g = g' := by
  obtain ⟨m, hm, rfl, address, module, name, hkey, rfl⟩ := moduleKey?_of_mem_declaredNames hp hq
  obtain ⟨m', hm', rfl, address', module', name', hkey', hq⟩ :=
    moduleKey?_of_mem_declaredNames hp hq'
  refine hdistinct m hm m' hm' ?_
  simp only [QName.full, QName.mk.injEq, Option.some.injEq] at hq
  obtain ⟨rfl, rfl, rfl⟩ := hq
  rw [hkey, hkey']

theorem mem_files_of_mem_declaredNames (h : q ∈ env.declaredNames f) : f ∈ env.program.files := by
  rw [Program.mem_files]
  by_contra hno
  have hnil : env.declaredRecords f = [] :=
    declaredRecords_eq_nil (Option.eq_none_iff_forall_ne_some.2 (not_exists.1 hno))
  simp [declaredNames, hnil] at h

/-- A name that a file declares before or after an edit of the file is declared by no other file. -/
theorem not_declared {p' : Program} (hp : ∀ t ∈ p.trees, t.WellFormed)
    (hdistinct : p.DistinctModules catalog.aliases) (hp' : ∀ t ∈ p'.trees, t.WellFormed)
    (hdistinct' : p'.DistinctModules catalog.aliases)
    (hnames : (ofProgram p' catalog).declaredNames g = (ofProgram p catalog).declaredNames g)
    (hg : g ≠ f) (hq : q ∈ (ofProgram p catalog).declaredNames f ∨
      q ∈ (ofProgram p' catalog).declaredNames f) :
    q ∉ (ofProgram p' catalog).declaredNames g := by
  intro hmem
  rcases hq with hq | hq
  · exact hg (file_unique hp hdistinct (hnames ▸ hmem) hq)
  · exact hg (file_unique hp' hdistinct' hmem hq)

theorem lastNamed_eq_none_iff :
    Record.lastNamed (env.declaredRecords f) q = none ↔ q ∉ env.declaredNames f :=
  Record.lastNamed_eq_none_iff

/-- The record of a struct is the one that its file declares. -/
theorem declared?_eq_lastNamed (hf : f ∈ env.program.files)
    (hother : ∀ g ∈ env.program.files, g ≠ f → q ∉ env.declaredNames g) :
    env.declared? q = Record.lastNamed (env.declaredRecords f) q := by
  have hfiles := env.program.nodup_files
  unfold declared?
  generalize env.program.files = files at hf hother hfiles
  induction files with
  | nil => cases hf
  | cons g files ih =>
    obtain ⟨hg, hfiles⟩ := List.nodup_cons.1 hfiles
    rw [List.flatMap_cons, Record.lastNamed_append]
    rcases List.mem_cons.1 hf with rfl | hf
    · have hrest : Record.lastNamed (files.flatMap env.declaredRecords) q = none := by
        rw [Record.lastNamed_eq_none_iff, List.map_flatMap, List.mem_flatMap]
        rintro ⟨g, hmem, hq⟩
        exact hother g (List.mem_cons_of_mem _ hmem) (fun h => hg (h ▸ hmem)) hq
      rw [hrest, Option.none_or]
    · have hne : g ≠ f := fun h => hg (h ▸ hf)
      have hnone := lastNamed_eq_none_iff.2 (hother g List.mem_cons_self hne)
      rw [hnone, Option.or_none]
      exact ih hf (fun g' hg' => hother g' (List.mem_cons_of_mem _ hg')) hfiles

/-- What is the same in the structs of other files is the same in the records that these files
declare. -/
theorem DiffersAt.map_declaredRecords {α : Type} (h : DiffersAt f env env') (part : Record → α)
    (hstructs : ∀ d, d.file ≠ f →
      (env'.structRecord? d).map part = (env.structRecord? d).map part) (hg : g ≠ f) :
    (env'.declaredRecords g).map part = (env.declaredRecords g).map part := by
  unfold Env.declaredRecords
  rw [h.program g hg]
  split
  · next t ht =>
    rw [List.map_filterMap, List.map_filterMap]
    refine List.filterMap_congr fun d hd => hstructs d ?_
    obtain ⟨m, -, hd⟩ := List.mem_flatMap.1 hd
    rw [(h.closed.tree ht).item hd, Program.file_of_tree? ht]
    exact hg
  · rfl

/-- The files that are not edited declare the same records. -/
theorem DiffersAt.declaredRecords (h : DiffersAt f env env')
    (hstructs : ∀ d, d.file ≠ f → env'.structRecord? d = env.structRecord? d) (hg : g ≠ f) :
    env'.declaredRecords g = env.declaredRecords g := by
  have hsame := h.map_declaredRecords id (fun d hd => by rw [hstructs d hd]) hg
  rwa [List.map_id, List.map_id] at hsame

theorem Edited.declaredRecords (h : Edited f env env') (hg : g ≠ f) :
    env'.declaredRecords g = env.declaredRecords g :=
  h.toDiffersAt.declaredRecords (fun _ hd => h.structs hd) hg

/-- They declare the same names whatever becomes of the fields. -/
theorem DiffersAt.declaredNames (h : DiffersAt f env env') (hg : g ≠ f) :
    env'.declaredNames g = env.declaredNames g := by
  refine h.map_declaredRecords Record.name (fun d hd => ?_) hg
  unfold Env.structRecord?
  rw [h.program.kind? hd, h.itemName? hd]
  split
  · rw [Option.map_map, Option.map_map]
    rfl
  · rfl

/-- The records that an edit changes are those of structs of the file, and the derivations of other
files that ask for them read the file. -/
def Reported (f : FileId) (env env' : Env) : Prop :=
  ∀ q, env'.record? q ≠ env.record? q → q ∈ env.declaredNames f ∧
    ∀ n t u, n.file ≠ f → env.Derives env.record? n t u → q ∈ u.records → f ∈ u.files

/-- A derivation that does not read the file holds after the edit. -/
theorem Reported.derives (hreported : Reported f env env') (h : Edited f env env') {n : NodeId}
    (hn : n.file ≠ f) {t : Option Ty} {u : Trace} (hu : env.Derives env.record? n t u)
    (hf : f ∉ u.files) : env'.Derives env'.record? n t u := by
  refine h.derives hn hu ⟨hf, fun q hq => ?_⟩
  by_contra hne
  exact hf ((hreported q hne).2 n t u hn hu hq)

end Env

/-! ## Files without structs -/

namespace Env

variable {p : Program} {catalog : Catalog} {f : FileId} {old t : Tree}

/-- The struct of a name is the item that a reference with this name finds. -/
theorem findStruct?_ofProgram (p : Program) (catalog : Catalog) (q : QName) :
    (ofProgram p catalog).findStruct? q = q.module.bind fun module =>
      (⟨p, catalog.aliases⟩ : Scope).member? q.address module q.name .type := by
  unfold findStruct?
  refine congrArg (Option.bind q.module) (funext fun module => ?_)
  refine congrArg (Option.bind _) (funext fun m => ?_)
  refine congrArg (List.find? · _) (funext fun item => ?_)
  have hprogram : (ofProgram p catalog).program = p := rfl
  rw [hprogram]
  cases p.kind? item with
  | none => rfl
  | some kind =>
    cases kind with
    | struct => simp [NodeKind.declares]
    | _ => rfl

theorem declaredRecords_of_valuesOnly (hclosed : p.Closed) (ht : p.tree? f = some t)
    (hvalues : t.ValuesOnly) : (ofProgram p catalog).declaredRecords f = [] := by
  have hprogram : (ofProgram p catalog).program = p := rfl
  rw [declaredRecords, hprogram, ht]
  refine List.filterMap_eq_nil_iff.2 fun d hd => ?_
  obtain ⟨m, hm, hd⟩ := List.mem_flatMap.1 hd
  have hfile : d.file = f := ((hclosed.tree ht).item hd).trans (Program.file_of_tree? ht)
  unfold structRecord?
  rw [hprogram, Program.kind?_eq (hfile ▸ ht)]
  split
  · next name _ _ _ _ hk =>
    have hoffer : (Space.type, name) ∈ t.offers m :=
      List.mem_filterMap.2 ⟨d, hd, by rw [hk]; rfl⟩
    exact nomatch hvalues m hm _ hoffer
  · rfl

/-- The record of a struct outlives an edit that keeps the index and the look-up of the struct. -/
theorem record?_congr {p' : Program} {q : QName}
    (hstructs : ∀ d, d.file ≠ f →
      (ofProgram p' catalog).structRecord? d = (ofProgram p catalog).structRecord? d)
    (hdeclared : (ofProgram p' catalog).declared? q = (ofProgram p catalog).declared? q)
    (hmember : ∀ module,
      (⟨p', catalog.aliases⟩ : Scope).member? q.address module q.name .type =
        (⟨p, catalog.aliases⟩ : Scope).member? q.address module q.name .type ∧
      ∀ d, (⟨p, catalog.aliases⟩ : Scope).member? q.address module q.name .type = some d →
        d.file ≠ f) :
    (ofProgram p' catalog).record? q = (ofProgram p catalog).record? q := by
  have hfound : (ofProgram p' catalog).found? q = (ofProgram p catalog).found? q := by
    unfold found?
    rw [findStruct?_ofProgram, findStruct?_ofProgram]
    cases q.module with
    | none => rfl
    | some module =>
      obtain ⟨hsame, hout⟩ := hmember module
      simp only [Option.bind_some, hsame]
      split
      · next d hd => exact hstructs d (hout d hd)
      · rfl
  rw [record?, record?, hdeclared, hfound]

/-- An edit that keeps the outline of a file without structs changes no record. -/
theorem record?_insert (hp : ∀ u ∈ p.trees, u.WellFormed) (ht : t.WellFormed)
    (hold : p.tree? t.file = some old) (houtline : old.SameOutline t)
    (hvalues : old.ValuesOnly) (q : QName) :
    (ofProgram (p.insert t) catalog).record? q = (ofProgram p catalog).record? q := by
  have hsteady := Scope.steady_insert hp ht hold houtline catalog.aliases
  have hedited := edited_of_steady hsteady
  have hclosed : (p.insert t).Closed := by
    intro u hu
    rcases Program.mem_trees_insert hu with rfl | hu
    · exact ht.closed
    · exact hsteady.closed u hu
  have hnew : (p.insert t).tree? t.file = some t := by rw [Program.tree?_insert, if_pos rfl]
  refine record?_congr (fun d hd => hedited.structs hd) ?_ fun module => ?_
  · have hfiles : (ofProgram (p.insert t) catalog).program.files = p.files :=
      Program.files_insert hold
    rw [declared?, declared?, hfiles]
    refine congrArg (Record.lastNamed · q) (List.flatMap_congr fun g _ => ?_)
    by_cases hg : g = t.file
    · rw [hg, declaredRecords_of_valuesOnly hclosed hnew (houtline.valuesOnly hvalues),
        declaredRecords_of_valuesOnly hsteady.closed hold hvalues]
    · exact hedited.declaredRecords hg
  · rcases hsteady.member q.address module q.name .type with
      ⟨d, d', hd, -, hfile, -⟩ | ⟨hsame, hout⟩
    · exact absurd hfile (Scope.file_ne_of_valuesOnly hold hsteady.closed hvalues hd)
    · exact ⟨hsame, hout⟩

theorem reported_of_valuesOnly (hp : ∀ u ∈ p.trees, u.WellFormed) (ht : t.WellFormed)
    (hold : p.tree? t.file = some old) (houtline : old.SameOutline t)
    (hvalues : old.ValuesOnly) :
    Reported t.file (ofProgram p catalog) (ofProgram (p.insert t) catalog) :=
  fun q hq => absurd (record?_insert hp ht hold houtline hvalues q) hq

end Env

/-! ## Coherent sessions -/

namespace Session

variable {s s' : Session} {f : FileId}

/-- What the cache serves is derived from the current trees, and the index is that of the current
trees. -/
structure Coherent (s : Session) : Prop where
  wellFormed : ∀ t ∈ s.program.trees, t.WellFormed
  distinct : s.program.DistinctModules s.catalog.aliases
  consistent :
    s.inference.Consistent (s.inference.env.coveredTyping s.inference.env.record?) s.cache
  indexed : ∀ g ∈ s.files, s.indexed.get? g = some (s.env.declaredNames g)
  declared : ∀ g ∈ s.files, ∀ q ∈ s.env.declaredNames g, (s.cache.record? q).isSome

theorem Pristine.coherent (h : s.Pristine) (hwf : ∀ t ∈ s.program.trees, t.WellFormed)
    (hdistinct : s.program.DistinctModules s.catalog.aliases) : s.Coherent where
  wellFormed := hwf
  distinct := hdistinct
  consistent := h.consistent _
  indexed := h.indexed
  declared g hg q hq := by
    rw [h.records, Option.isSome_iff_ne_none]
    intro hnone
    exact Env.declared?_eq_none_iff.1 hnone g hg hq

/-- What an edit does to a session that does not reset it: types of the file and types that were
derived from it are dropped, and the index follows the records that the file declares. -/
structure Revised (f : FileId) (s s' : Session) : Prop where
  timed : s'.cache.WellTimed
  served : ∀ {n x}, s'.cache.served? n = some x →
    s.cache.served? n = some x ∧ f ≠ n.file ∧ f ∉ x.deps
  record : ∀ q, s'.cache.record? q = (Record.lastNamed (s'.env.declaredRecords f) q).or
    (if q ∈ s.env.declaredNames f then none else s.cache.record? q)
  indexed : ∀ g ∈ s'.files,
    s'.indexed.get? g = if g = f then some (s'.env.declaredNames f) else s.indexed.get? g

namespace Revised

variable (hrevised : Revised f s s') (h : s.Coherent)
  (hwf : ∀ t ∈ s'.program.trees, t.WellFormed)
  (hdistinct : s'.program.DistinctModules s'.catalog.aliases)
  (hedited : Env.Edited f s.env s'.env) (hreported : Env.Reported f s.env s'.env)

include hedited in
theorem mem_files {g : FileId} (hg : g ≠ f) : g ∈ s'.files ↔ g ∈ s.files := by
  have htree : s'.program.tree? g = s.program.tree? g := hedited.program g hg
  rw [files, files, Program.mem_files, Program.mem_files, htree]

include h hwf hdistinct hedited in
theorem not_declared {q : QName} {g : FileId} (hg : g ≠ f)
    (hq : q ∈ s.env.declaredNames f ∨ q ∈ s'.env.declaredNames f) :
    q ∉ s'.env.declaredNames g := by
  have hcatalog : s'.catalog = s.catalog := hedited.catalog
  have hnames := hedited.toDiffersAt.declaredNames hg
  rw [env, env, hcatalog] at hnames hq
  rw [env, hcatalog]
  exact Env.not_declared h.wellFormed h.distinct hwf (hcatalog ▸ hdistinct) hnames hg hq

include hrevised h hwf hdistinct hedited hreported in
theorem records (q : QName) : (s'.cache.record? q).or (s'.env.found? q) = s'.env.record? q := by
  rw [hrevised.record, Env.record?]
  by_cases hnew : q ∈ s'.env.declaredNames f
  · have hf := Env.mem_files_of_mem_declaredNames hnew
    have hother : ∀ g ∈ s'.env.program.files, g ≠ f → q ∉ s'.env.declaredNames g :=
      fun g _ hg => not_declared h hwf hdistinct hedited hg (.inr hnew)
    rw [Env.declared?_eq_lastNamed hf hother]
    cases hr : Record.lastNamed (s'.env.declaredRecords f) q with
    | none => exact absurd hnew (Env.lastNamed_eq_none_iff.1 hr)
    | some r => rfl
  · have hnone : (∀ g ∈ s'.files, g ≠ f → q ∉ s'.env.declaredNames g) →
        s'.env.declared? q = none := by
      intro hother
      refine Env.declared?_eq_none_iff.2 fun g hg => ?_
      by_cases hgf : g = f
      · exact hgf ▸ hnew
      · exact hother g hg hgf
    rw [Env.lastNamed_eq_none_iff.2 hnew, Option.none_or]
    by_cases hold : q ∈ s.env.declaredNames f
    · rw [if_pos hold, hnone fun g _ hg => not_declared h hwf hdistinct hedited hg (.inl hold)]
    · rw [if_neg hold]
      have hsame : s'.env.record? q = s.env.record? q := by
        by_contra hne
        exact hold (hreported q hne).1
      cases hr : s.cache.record? q with
      | some r =>
        have hrecord := h.consistent.records q
        rw [hr] at hrecord
        exact hrecord.trans hsame.symm
      | none =>
        -- a struct of another file would be in the index
        rw [hnone]
        intro g hg hgf hmem
        have hmem : q ∈ s.env.declaredNames g := hedited.toDiffersAt.declaredNames hgf ▸ hmem
        have := h.declared g ((mem_files hedited hgf).1 hg) q hmem
        simp [hr] at this

include hrevised h hedited hreported in
/-- What is still served was derived without the file, and so it is derived from the new trees. -/
theorem derived {n : NodeId} {x : Cached} (hx : s'.cache.served? n = some x) :
    s'.env.DerivesUpTo s'.env.record? (· ⊆ ·) n (some x.ty) (insert n.file x.deps.toFinset) := by
  obtain ⟨hx, hn, hdeps⟩ := hrevised.served hx
  obtain ⟨u, hu, hfiles⟩ := h.consistent.served hx
  have hf : f ∉ u.files := by
    intro hmem
    have hmem := hfiles hmem
    simp only [Finset.mem_insert, List.mem_toFinset] at hmem
    exact hmem.elim hn hdeps
  exact ⟨u, hreported.derives hedited hn.symm hu hf, hfiles⟩

include hrevised h hwf hdistinct hedited hreported in
theorem coherent : s'.Coherent where
  wellFormed := hwf
  distinct := hdistinct
  consistent :=
    { timed := hrevised.timed
      generation := rfl
      known := fun hx => h.consistent.known (hrevised.served hx).1
      deps := fun hx => h.consistent.deps (hrevised.served hx).1
      served := fun hx => derived hrevised h hedited hreported hx
      dependents := fun _ => trivial
      records := records hrevised h hwf hdistinct hedited hreported }
  indexed g hg := by
    rw [hrevised.indexed g hg]
    split
    · next hgf => rw [hgf]
    · next hgf =>
      rw [h.indexed g ((mem_files hedited hgf).1 hg), hedited.toDiffersAt.declaredNames hgf]
  declared g hg q hq := by
    rw [hrevised.record]
    by_cases hnew : q ∈ s'.env.declaredNames f
    · cases hr : Record.lastNamed (s'.env.declaredRecords f) q with
      | none => exact absurd hnew (Env.lastNamed_eq_none_iff.1 hr)
      | some r => rfl
    · have hgf : g ≠ f := fun hgf => hnew (hgf ▸ hq)
      have hold : q ∉ s.env.declaredNames f := fun hold =>
        not_declared h hwf hdistinct hedited hgf (.inl hold) hq
      rw [Env.lastNamed_eq_none_iff.2 hnew, Option.none_or, if_neg hold]
      rw [hedited.toDiffersAt.declaredNames hgf] at hq
      exact h.declared g ((mem_files hedited hgf).1 hg) q hq

end Revised

/-! ## Steps -/

/-- A reset makes a session coherent, whatever it held. -/
theorem coherent_reload (htimed : s.cache.WellTimed)
    (hwf : ∀ t ∈ s.program.trees, t.WellFormed)
    (hdistinct : s.program.DistinctModules s.catalog.aliases) : s.reload.Coherent := by
  have hs := reindexed_reload s
  have hprogram : s.reload.program = s.program := congrArg Sources.program hs.sources
  refine (pristine_reload htimed).coherent ?_ ?_
  · rw [hprogram]
    exact hwf
  · rw [hprogram, hs.catalog]
    exact hdistinct

theorem Coherent.covered (h : s.Coherent) : s.Consistent s.inference
    (s.inference.env.coveredTyping s.inference.env.record?) := ⟨rfl, h.consistent⟩

theorem Coherent.answer (h : s.Coherent) {q : Query} (hcuts : (s.answer q).2.cuts = s.cuts) :
    (s.answer q).2.Coherent := by
  have hs := s.asked_answer q
  have hprogram : (s.answer q).2.program = s.program := congrArg Sources.program hs.sources
  have hafter := (h.covered.answer q hcuts).1.cache
  refine ⟨?_, ?_, ?_, ?_, ?_⟩
  · rw [hprogram]
    exact h.wellFormed
  · rw [hprogram, hs.catalog]
    exact h.distinct
  · rw [hs.inference]
    exact hafter
  · rw [hs.indexed, hs.env, files, hprogram]
    exact h.indexed
  · rw [hs.env, files, hprogram]
    intro g hg name hname
    obtain ⟨r, hr⟩ := Option.isSome_iff_exists.1 (h.declared g hg name hname)
    rw [hs.cache.indexed hr]
    rfl

theorem revised_setFile (htimed : s.cache.WellTimed)
    (hindexed : ∀ g ∈ s.files, s.indexed.get? g = some (s.env.declaredNames g)) {old t : Tree}
    (hold : s.program.tree? t.file = some old) (hitems : old.sameItems t = true) :
    Revised t.file s (s.setFile t) := by
  rw [setFile_of_sameItems hold hitems]
  have hs := reindexed_reindex
    { s with sources := (s.sources.install t).2, cache := s.cache.invalidate t.file } t.file
  refine ⟨hs.wellTimed (htimed.invalidate t.file), fun {n x} hx => ?_, fun q => ?_,
    fun g hg => ?_⟩
  · exact Cache.served?_of_invalidate htimed ((hs.served? n).symm.trans hx)
  · have hnames : (s.indexed.get? t.file).getD [] = s.env.declaredNames t.file := by
      rw [hindexed t.file (Program.mem_files.2 ⟨old, hold⟩)]
      rfl
    rw [record?_reindex, hs.env, hnames]
    rfl
  · rw [indexed_reindex, Table.get?_insert, hs.env]

theorem revised_removeFile (htimed : s.cache.WellTimed)
    (hindexed : ∀ g ∈ s.files, s.indexed.get? g = some (s.env.declaredNames g)) (hf : f ∈ s.files) :
    Revised f s (s.removeFile f).2 := by
  have hs := reindexed_removeFile hf
  have hgone : (s.program.erase f).tree? f = none := by rw [Program.tree?_erase, if_pos rfl]
  refine ⟨hs.wellTimed (htimed.retire f), fun {n x} hx => ?_, fun q => ?_,
    fun g hg => ?_⟩
  · rw [hs.served? n] at hx
    exact Cache.served?_of_invalidate htimed ((s.cache.served?_retire f n).symm.trans hx)
  · have hnil : (s.removeFile f).2.env.declaredRecords f = [] :=
      Env.declaredRecords_eq_nil (by rw [env_removeFile hf]; exact hgone)
    rw [hnil, removeFile_eq hf, Cache.record?_foldl_unindex, hindexed f hf]
    rfl
  · have hg : g ≠ f := by
      rintro rfl
      rw [files, program_removeFile hf, Program.mem_files, hgone] at hg
      simp at hg
    rw [removeFile_eq hf, if_neg hg]
    exact (s.indexed.get?_erase f g).trans (if_neg hg)

end Session

end MoveTyping
