import MoveTyping.Session
import MoveTyping.Proofs.Infer.Consistent
import MoveTyping.Proofs.Program

/-!
# The index of a session

Which records a session has in its index after its edits, and sessions that have just been reset:
these hold no types, and in their index there is, for each name, the record that was declared last.

## Main definitions

* `Env.declared?`, `Env.record?` — the record of a name by the declarations of the program, and by
  the library as well.
* `Session.Reindexed` — two sessions that differ in their index alone.
* `Session.Pristine` — a session as it is after a reset.
* `Session.ofTrees` — the session of a list of trees.
-/

namespace MoveTyping

/-! ## Records by name -/

/-- The last record of a name in a list. -/
def Record.lastNamed (records : List Record) (q : QName) : Option Record :=
  records.reverse.find? (·.name = q)

theorem Record.lastNamed_append (rs rs' : List Record) (q : QName) :
    lastNamed (rs ++ rs') q = (lastNamed rs' q).or (lastNamed rs q) := by
  simp [lastNamed]

theorem Record.lastNamed_cons (r : Record) (rs : List Record) (q : QName) :
    lastNamed (r :: rs) q = (lastNamed rs q).or (if r.name = q then some r else none) := by
  simp only [lastNamed, List.reverse_cons, List.find?_append, List.find?_cons, List.find?_nil]
  split <;> simp_all

theorem Record.lastNamed_eq_none_iff {rs : List Record} {q : QName} :
    lastNamed rs q = none ↔ q ∉ rs.map Record.name := by
  simp [lastNamed]

namespace Env

/-- The names of the structs that a file declares. -/
def declaredNames (env : Env) (file : FileId) : List QName :=
  (env.declaredRecords file).map Record.name

/-- The record that the program declares for a name; of several the last one counts. -/
def declared? (env : Env) (q : QName) : Option Record :=
  Record.lastNamed (env.program.files.flatMap env.declaredRecords) q

/-- The record of a name: the declared one, or else the one that is found by its parts. -/
def record? (env : Env) (q : QName) : Option Record := (env.declared? q).or (env.found? q)

theorem declared?_eq_none_iff {env : Env} {q : QName} :
    env.declared? q = none ↔ ∀ f ∈ env.program.files, q ∉ env.declaredNames f := by
  simp only [declared?, Record.lastNamed_eq_none_iff, declaredNames, List.map_flatMap,
    List.mem_flatMap, not_exists, not_and]

end Env

namespace Cache

variable {c : Cache} {q : QName}

theorem record?_foldl_indexRecord (records : List Record) (c : Cache) (q : QName) :
    (records.foldl (fun c r => c.indexRecord r.name r) c).record? q =
      (Record.lastNamed records q).or (c.record? q) := by
  induction records generalizing c with
  | nil => rfl
  | cons r records ih =>
    rw [List.foldl_cons, ih, Record.lastNamed_cons]
    by_cases hq : r.name = q
    · simp [record?, indexRecord, hq]
    · simp [record?, indexRecord, Table.get?_insert, hq, Ne.symm hq]

theorem record?_foldl_unindex (names : List QName) (c : Cache) (q : QName) :
    (names.foldl (fun c name => (c.unindex name).2) c).record? q =
      if q ∈ names then none else c.record? q := by
  induction names generalizing c with
  | nil => simp
  | cons name names ih =>
    rw [List.foldl_cons, ih]
    simp only [record?, unindex, Table.get?_erase, List.mem_cons]
    grind

theorem exists_foldl_indexRecord (records : List Record) (c : Cache) :
    ∃ index, records.foldl (fun c r => c.indexRecord r.name r) c = { c with index } := by
  induction records generalizing c with
  | nil => exact ⟨c.index, rfl⟩
  | cons r records ih => exact ih (c.indexRecord r.name r)

theorem exists_foldl_unindex (names : List QName) (c : Cache) :
    ∃ index, names.foldl (fun c name => (c.unindex name).2) c = { c with index } := by
  induction names generalizing c with
  | nil => exact ⟨c.index, rfl⟩
  | cons name names ih => exact ih (c.unindex name).2

end Cache

/-! ## Reindexing -/

namespace Session

variable {s s' s'' : Session} {f : FileId} {q : QName}

/-- Two sessions that differ in their index alone. -/
structure Reindexed (s s' : Session) : Prop where
  settings : s'.settings = s.settings
  catalog : s'.catalog = s.catalog
  sources : s'.sources = s.sources
  counters : s'.counters = s.counters
  cache : ∃ index, s'.cache = { s.cache with index }

namespace Reindexed

theorem refl (s : Session) : Reindexed s s := ⟨rfl, rfl, rfl, rfl, s.cache.index, rfl⟩

theorem trans (h : Reindexed s s') (h' : Reindexed s' s'') : Reindexed s s'' := by
  obtain ⟨index, hc⟩ := h.cache
  obtain ⟨index', hc'⟩ := h'.cache
  exact ⟨h'.settings.trans h.settings, h'.catalog.trans h.catalog, h'.sources.trans h.sources,
    h'.counters.trans h.counters, index', by rw [hc', hc]⟩

theorem env (h : Reindexed s s') : s'.env = s.env := by
  simp only [Session.env, program, h.sources, h.catalog]

theorem files (h : Reindexed s s') : s'.files = s.files := by
  simp only [Session.files, program, h.sources]

theorem served? (h : Reindexed s s') (n : NodeId) :
    s'.cache.served? n = s.cache.served? n := by
  obtain ⟨index, hc⟩ := h.cache
  rw [hc]
  exact Cache.served?_congr (by rfl) (by rfl) (by rfl) n

theorem cacheSettings (h : Reindexed s s') : s'.cache.settings = s.cache.settings := by
  obtain ⟨index, hc⟩ := h.cache
  rw [hc]

theorem dependents (h : Reindexed s s') : s'.cache.dependents = s.cache.dependents := by
  obtain ⟨index, hc⟩ := h.cache
  rw [hc]

theorem wellTimed (h : Reindexed s s') (hs : s.cache.WellTimed) : s'.cache.WellTimed := by
  obtain ⟨index, hc⟩ := h.cache
  rw [hc]
  exact ⟨hs.cleared, hs.invalidated, hs.entry⟩

end Reindexed

theorem reindexed_reindex (s : Session) (f : FileId) : Reindexed s (s.reindex f) := by
  refine ⟨rfl, rfl, rfl, rfl, ?_⟩
  let gone := ((s.indexed.get? f).getD []).filter (!(s.env.declaredNames f).contains ·)
  obtain ⟨index, hc⟩ := Cache.exists_foldl_unindex gone s.cache
  obtain ⟨index', hc'⟩ := Cache.exists_foldl_indexRecord (s.env.declaredRecords f)
    (gone.foldl (fun c name => (c.unindex name).2) s.cache)
  exact ⟨index', hc'.trans (by rw [hc])⟩

@[simp] theorem indexed_reindex (s : Session) (f : FileId) :
    (s.reindex f).indexed = s.indexed.insert f (s.env.declaredNames f) := rfl

/-- After reindexing a file its declarations are in the index, and the names that it does not
declare any more are not. -/
theorem record?_reindex (s : Session) (f : FileId) (q : QName) :
    (s.reindex f).cache.record? q = (Record.lastNamed (s.env.declaredRecords f) q).or
      (if q ∈ (s.indexed.get? f).getD [] then none else s.cache.record? q) := by
  simp only [reindex, Cache.record?_foldl_indexRecord, Cache.record?_foldl_unindex]
  cases hq : Record.lastNamed (s.env.declaredRecords f) q with
  | some r => rfl
  | none =>
    have hq : ((s.env.declaredRecords f).map Record.name).contains q = false := by
      simpa using Record.lastNamed_eq_none_iff.1 hq
    simp only [List.mem_filter, hq, Bool.not_false, and_true, Option.none_or]

theorem reindexed_foldl_reindex (files : List FileId) (s : Session) :
    Reindexed s (files.foldl reindex s) := by
  induction files generalizing s with
  | nil => exact .refl s
  | cons f files ih => exact (reindexed_reindex s f).trans (ih _)

/-- Reindexing files that have nothing in the index yet. -/
theorem record?_foldl_reindex {files : List FileId} (hnodup : files.Nodup) {s : Session}
    (hnew : ∀ f ∈ files, s.indexed.get? f = none) (q : QName) :
    (files.foldl reindex s).cache.record? q =
      (Record.lastNamed (files.flatMap s.env.declaredRecords) q).or (s.cache.record? q) := by
  induction files generalizing s with
  | nil => rfl
  | cons f files ih =>
    obtain ⟨hf, hnodup⟩ := List.nodup_cons.1 hnodup
    have hnew' : ∀ g ∈ files, (s.reindex f).indexed.get? g = none := by
      intro g hg
      have hne : g ≠ f := fun h => hf (h ▸ hg)
      rw [indexed_reindex, Table.get?_insert, if_neg hne]
      exact hnew g (List.mem_cons_of_mem _ hg)
    rw [List.foldl_cons, ih hnodup hnew', record?_reindex, (reindexed_reindex s f).env,
      hnew f List.mem_cons_self, List.flatMap_cons, Record.lastNamed_append, Option.or_assoc]
    rfl

theorem indexed_foldl_reindex (files : List FileId) (s : Session) (g : FileId) :
    (files.foldl reindex s).indexed.get? g =
      if g ∈ files then some (s.env.declaredNames g) else s.indexed.get? g := by
  induction files generalizing s with
  | nil => simp
  | cons f files ih =>
    rw [List.foldl_cons, ih, (reindexed_reindex s f).env, indexed_reindex, Table.get?_insert]
    grind

/-! ## Resets -/

/-- A session as it is after a reset: nothing is derived, and the index is that of the trees. -/
structure Pristine (s : Session) : Prop where
  timed : s.cache.WellTimed
  served : ∀ n, s.cache.served? n = none
  dependents : s.cache.dependents = []
  records : ∀ q, s.cache.record? q = s.env.declared? q
  indexed : ∀ f ∈ s.files, s.indexed.get? f = some (s.env.declaredNames f)

theorem Pristine.consistent (h : s.Pristine) (T : s.inference.env.Typing s.env.record?) :
    s.inference.Consistent T s.cache :=
  .of_unserved h.timed rfl h.served (fun hf => by simp [h.dependents] at hf)
    fun q => congrArg (Option.or · (s.env.found? q)) (h.records q)

theorem pristine_start (settings : Settings) (catalog : Catalog) :
    (start settings catalog).Pristine where
  timed := .ofSettings _
  served _ := rfl
  dependents := rfl
  records _ := rfl
  indexed _ hf := nomatch hf

theorem reindexed_reload (s : Session) :
    Reindexed { s with cache := s.cache.clear, indexed := ∅ } s.reload :=
  reindexed_foldl_reindex ..

theorem pristine_reload (h : s.cache.WellTimed) : s.reload.Pristine := by
  have hs := s.reindexed_reload
  refine ⟨hs.wellTimed h.clear, fun n => hs.served? n, hs.dependents, fun q => ?_, fun f hf => ?_⟩
  · rw [hs.env]
    refine (record?_foldl_reindex s.program.nodup_files (fun _ _ => rfl) q).trans ?_
    exact Option.or_none
  · rw [hs.env]
    exact (indexed_foldl_reindex ..).trans (if_pos (hs.files ▸ hf))

/-- Installing the tree of a new file resets the session. -/
theorem setFile_of_new {t : Tree} (h : s.program.tree? t.file = none) :
    s.setFile t =
      reload { s with
        sources := (s.sources.install t).2
        cache := s.cache.revive t.file } := by
  simp only [setFile, h]

/-- An edit that keeps the items drops what depends on the file. -/
theorem setFile_of_sameItems {old t : Tree} (h : s.program.tree? t.file = some old)
    (hitems : old.sameItems t = true) :
    s.setFile t =
      reindex { s with
        sources := (s.sources.install t).2
        cache := s.cache.invalidate t.file } t.file := by
  simp only [setFile, h, hitems, ↓reduceIte]

/-- An edit that changes the items resets the session. -/
theorem setFile_of_changedItems {old t : Tree} (h : s.program.tree? t.file = some old)
    (hitems : ¬old.sameItems t = true) :
    s.setFile t = reload { s with sources := (s.sources.install t).2 } := by
  simp only [setFile, h, hitems, Bool.false_eq_true, ↓reduceIte]

/-- The parts of a session that an edit leaves alone, with the trees that it leaves. -/
theorem setFile_frame (s : Session) (t : Tree) :
    (s.setFile t).settings = s.settings ∧ (s.setFile t).catalog = s.catalog ∧
      (s.setFile t).program = s.program.insert t ∧ (s.setFile t).counters = s.counters ∧
      (s.setFile t).cache.settings = s.cache.settings := by
  have hframe : ∀ {edited s' : Session}, edited.settings = s.settings →
      edited.catalog = s.catalog → edited.sources = (s.sources.install t).2 →
      edited.counters = s.counters → edited.cache.settings = s.cache.settings →
      Reindexed edited s' →
      s'.settings = s.settings ∧ s'.catalog = s.catalog ∧ s'.program = s.program.insert t ∧
        s'.counters = s.counters ∧ s'.cache.settings = s.cache.settings := by
    intro edited s' hsettings hcatalog hsources hcounters hcache hs
    refine ⟨hs.settings.trans hsettings, hs.catalog.trans hcatalog, ?_,
      hs.counters.trans hcounters, hs.cacheSettings.trans hcache⟩
    rw [program, hs.sources, hsources]
    rfl
  unfold setFile
  cases s.program.tree? t.file with
  | none => exact hframe (by rfl) (by rfl) (by rfl) (by rfl) (by rfl) (reindexed_reload _)
  | some old =>
    simp only
    split
    · exact hframe (by rfl) (by rfl) (by rfl) (by rfl) (by rfl) (reindexed_reindex _ _)
    · exact hframe (by rfl) (by rfl) (by rfl) (by rfl) (by rfl) (reindexed_reload _)

/-! ## Removals -/

/-- What the removal of a live file does. -/
theorem removeFile_eq (hf : f ∈ s.files) :
    s.removeFile f = (true,
      { s with
        sources := (s.sources.remove f).2
        cache := ((s.indexed.get? f).getD []).foldl (fun c name => (c.unindex name).2)
          (s.cache.retire f)
        indexed := s.indexed.erase f }) := by
  obtain ⟨t, ht⟩ := Program.mem_files.1 hf
  have hlive : (s.sources.remove f).1 = true := by
    rw [Sources.remove, show s.sources.program.tree? f = some t from ht]
    rfl
  unfold removeFile
  split
  · next hremove => simp [hremove] at hlive
  · next hremove => rw [hremove]

theorem reindexed_removeFile (hf : f ∈ s.files) :
    Reindexed { s with sources := (s.sources.remove f).2, cache := s.cache.retire f }
      (s.removeFile f).2 := by
  rw [removeFile_eq hf]
  exact ⟨rfl, rfl, rfl, rfl, Cache.exists_foldl_unindex _ _⟩

theorem program_removeFile (hf : f ∈ s.files) :
    (s.removeFile f).2.program = s.program.erase f := by
  obtain ⟨t, ht⟩ := Program.mem_files.1 hf
  rw [program, (reindexed_removeFile hf).sources, Sources.remove,
    show s.sources.program.tree? f = some t from ht]
  rfl

theorem env_removeFile (hf : f ∈ s.files) :
    (s.removeFile f).2.env = .ofProgram (s.program.erase f) s.catalog := by
  rw [env, program_removeFile hf, (reindexed_removeFile hf).catalog]

/-! ## New sessions -/

/-- The session in which the trees are installed, one after the other. -/
def ofTrees (settings : Settings) (catalog : Catalog) (trees : List Tree) : Session :=
  trees.foldl setFile (start settings catalog)

/-- A session without a past: it is pristine, and nothing was counted yet. -/
structure New (settings : Settings) (catalog : Catalog) (p : Program) (s : Session) : Prop where
  pristine : s.Pristine
  settings : s.settings = settings
  catalog : s.catalog = catalog
  program : s.program = p
  counters : s.counters = {}
  sweeps : s.cache.counters.sweeps = 0

theorem new_start (settings : Settings) (catalog : Catalog) :
    New settings catalog .empty (start settings catalog) :=
  ⟨pristine_start settings catalog, rfl, rfl, rfl, rfl, rfl⟩

theorem New.setFile {settings : Settings} {catalog : Catalog} {p : Program} {t : Tree}
    (h : New settings catalog p s) (ht : p.tree? t.file = none) :
    New settings catalog (p.insert t) (s.setFile t) := by
  rw [setFile_of_new (h.program ▸ ht)]
  have hs := reindexed_reload
    { s with sources := (s.sources.install t).2, cache := s.cache.revive t.file }
  refine ⟨pristine_reload (h.pristine.timed.revive t.file), hs.settings.trans h.settings,
    hs.catalog.trans h.catalog, ?_, hs.counters.trans h.counters, ?_⟩
  · rw [Session.program, hs.sources, ← h.program]
    rfl
  · obtain ⟨index, hc⟩ := hs.cache
    rw [hc]
    exact h.sweeps

theorem new_foldl_setFile {settings : Settings} {catalog : Catalog} {p : Program}
    {trees : List Tree} (h : New settings catalog p s) (hnodup : (trees.map (·.file)).Nodup)
    (hnew : ∀ t ∈ trees, p.tree? t.file = none) :
    New settings catalog (trees.foldl Program.insert p) (trees.foldl Session.setFile s) := by
  induction trees generalizing p s with
  | nil => exact h
  | cons t trees ih =>
    obtain ⟨ht, hnodup⟩ := List.nodup_cons.1 hnodup
    refine ih (h.setFile (hnew t List.mem_cons_self)) hnodup fun u hu => ?_
    have hne : u.file ≠ t.file := fun heq => ht (List.mem_map.2 ⟨u, hu, heq⟩)
    rw [Program.tree?_insert, if_neg hne]
    exact hnew u (List.mem_cons_of_mem _ hu)

theorem new_ofTrees (settings : Settings) (catalog : Catalog) {trees : List Tree}
    (hnodup : (trees.map (·.file)).Nodup) :
    New settings catalog (trees.foldl Program.insert .empty) (ofTrees settings catalog trees) :=
  new_foldl_setFile (new_start settings catalog) hnodup fun _ _ => rfl

/-- Whatever the order in which the trees of a program are installed. -/
theorem new_ofTrees_of_perm (settings : Settings) (catalog : Catalog) {trees : List Tree}
    {p : Program} (h : trees.Perm p.trees) :
    New settings catalog p (ofTrees settings catalog trees) := by
  have hnew := new_ofTrees settings catalog (Program.nodup_of_perm h)
  rwa [Program.foldl_insert_eq h] at hnew

end Session

end MoveTyping
