import MoveTyping.Proofs.Cache.Entries

/-!
# What a cache remembers

Caches with different pasts have different generations, ticks, marks of edits and counters. None of
that can be seen from outside: what a cache serves, keeps and sweeps is decided by the types that it
remembers and by the time that has passed since each of them was used.

This is so because in a cache that is kept up by a session every entry may be served: an edit takes
the entries away that are derived from its file, instead of leaving them to be found stale.

## Main definitions

* `Cache.memory` — the nodes of a cache with their types and ages.
* `Cache.Tidy` — a cache in which every entry may be served.
* `Cache.Twin` — two tidy caches that remember the same.
-/

namespace MoveTyping

/-- Nodes with their types and the time since each was used. -/
abbrev Memory := List (NodeId × Cached × Int)

namespace Memory

/-- A node is used: it comes first, and the others grow older. -/
def use (m : Memory) (n : NodeId) (x : Cached) : Memory :=
  (n, x, 1) :: (m.filter (·.1 ≠ n)).map fun r => (r.1, r.2.1, r.2.2 + 1)

/-- The oldest nodes. -/
def oldest (m : Memory) (count : Nat) : List NodeId :=
  ((Cache.arrange (fun a b => b.2.2 < a.2.2) m).take count).map Prod.fst

/-- Keeps the `low` nodes that were used last. -/
def shrink (m : Memory) (low : Nat) : Memory :=
  if m.length ≤ low then m else m.filter fun r => !(m.oldest (m.length - low)).contains r.1

end Memory

namespace Cache

variable {c c' : Cache} {n m : NodeId} {x : Cached} {f : FileId} {q : QName}

/-- A row of the entries as it is remembered at a tick. -/
def memoryOf (tick : Nat) (r : NodeId × Entry) : NodeId × Cached × Int :=
  (r.1, r.2.toCached, (tick : Int) - r.2.lastUsed)

/-- What a cache remembers. -/
def memory (c : Cache) : Memory := c.entries.rows.map (memoryOf c.tick)

theorem length_memory (c : Cache) : c.memory.length = c.size := List.length_map _

theorem lookup_memory (c : Cache) (n : NodeId) :
    (c.memory.lookup n).map Prod.fst = (c.entries.get? n).map Entry.toCached := by
  unfold memory Table.get?
  induction c.entries.rows with
  | nil => rfl
  | cons r rows ih =>
    by_cases hr : r.1 = n
    · simp [memoryOf, Table.rowValue, hr]
    · have hne : (n == r.1) = false := by simpa using Ne.symm hr
      simpa [memoryOf, Table.rowValue, hr, List.lookup_cons, hne] using ih

/-! ## Tidy caches -/

/-- No entry is stale, and none is of a file that is gone. -/
structure Tidy (c : Cache) : Prop extends Consistent c where
  timed : c.WellTimed
  present : ∀ {n e}, c.entries.get? n = some e → c.isRetired n.file = false

namespace Tidy

theorem of_entries_eq_empty (htimed : c.WellTimed) (hentries : c.entries = ∅) : c.Tidy :=
  ⟨.of_entries_eq_empty hentries, htimed, by simp [hentries]⟩

theorem served?_eq_lookup (h : c.Tidy) (n : NodeId) :
    c.served? n = (c.memory.lookup n).map Prod.fst :=
  (h.served?_eq n).trans (c.lookup_memory n).symm

theorem memory_eq_nil (h : c.Tidy) (hserved : ∀ n, c.served? n = none) : c.memory = [] := by
  refine List.map_eq_nil_iff.2 (List.eq_nil_iff_forall_not_mem.2 fun r hr => ?_)
  have hr : c.entries.get? r.1 = some r.2 := Table.get?_eq_some_iff.2 hr
  have := hserved r.1
  simp [h.served?_eq, hr] at this

end Tidy

/-! ## Uses -/

theorem memory_use (entries : Table NodeId Entry) (tick : Nat) (n : NodeId) (e : Entry)
    (he : e.lastUsed = tick) :
    ((entries.insert n e).rows.map (memoryOf (tick + 1))) =
      Memory.use (entries.rows.map (memoryOf tick)) n e.toCached := by
  have hkeys : ((fun r => decide (r.1 ≠ n)) : NodeId × Cached × Int → Bool) ∘ memoryOf tick =
      fun r => decide (r.1 ≠ n) := rfl
  simp only [Table.insert, Table.erase, Table.filter, Memory.use, List.map_cons, List.filter_map,
    List.map_map, hkeys]
  refine List.cons_eq_cons.2 ⟨?_, List.map_congr_left fun r _ => ?_⟩
  · simp only [memoryOf, he]
    refine congrArg (fun age => (n, e.toCached, age)) ?_
    omega
  · simp only [memoryOf, Function.comp_apply]
    refine congrArg (fun age => (r.1, r.2.toCached, age)) ?_
    omega

theorem memory_store (c : Cache) (n : NodeId) (x : Cached) (generation : Nat) :
    (c.store n x generation).memory = c.memory.use n x :=
  memory_use c.entries c.tick n _ rfl

/-- A hit is a use of the node, and a miss changes nothing. -/
theorem Tidy.memory_fetch (h : c.Tidy) (n : NodeId) :
    (c.fetch n).2.memory = ((c.served? n).map (c.memory.use n)).getD c.memory := by
  rw [h.served?_eq]
  unfold fetch
  cases hn : c.entries.get? n with
  | none => rfl
  | some e =>
    have hvalid := h.valid hn
    simp only [hvalid, ↓reduceIte]
    exact memory_use c.entries c.tick n _ rfl

/-! ## Sweeps -/

theorem oldest_memory (entries : Table NodeId Entry) (tick count : Nat) :
    oldest entries count = Memory.oldest (entries.rows.map (memoryOf tick)) count := by
  have hsort : (byUse entries).map (memoryOf tick) =
      arrange (fun a b => b.2.2 < a.2.2) (entries.rows.map (memoryOf tick)) := by
    refine map_arrange _ (fun a b => decide_eq_decide.2 ?_) entries.rows
    simp only [memoryOf]
    omega
  rw [Memory.oldest, ← hsort, ← List.map_take, List.map_map]
  rfl

theorem memory_shrink (entries : Table NodeId Entry) (tick low : Nat) :
    (shrink entries low).rows.map (memoryOf tick) =
      Memory.shrink (entries.rows.map (memoryOf tick)) low := by
  unfold shrink Memory.shrink
  rw [List.length_map]
  change _ = if entries.size ≤ low then _ else _
  split
  · rfl
  · rw [oldest_memory entries tick, List.filter_map]
    rfl

/-- A sweep of a tidy cache only drops what is old. -/
theorem Tidy.filter_isLive (h : c.Tidy) : c.entries.filter c.isLive = c.entries := by
  rw [h.toConsistent.filter_isLive]
  exact Table.filter_eq_self fun hn => by simp [h.present hn]

theorem Tidy.memory_sweep (h : c.Tidy) :
    c.sweep.2.memory = c.memory.shrink c.settings.lowWatermark := by
  simp only [sweep, memory, h.filter_isLive]
  exact memory_shrink ..

/-! ## What keeps a cache tidy -/

namespace Tidy

theorem fetch (h : c.Tidy) (n : NodeId) : (c.fetch n).2.Tidy where
  toConsistent := h.toConsistent.fetch n
  timed := h.timed.fetch n
  present {m e} hm := by
    obtain ⟨entries, tick, counters, hfetch⟩ := c.exists_fetch n
    have hretired : (c.fetch n).2.isRetired m.file = c.isRetired m.file := by
      rw [hfetch]
      rfl
    rw [hretired]
    rcases get?_fetch hm with ⟨-, -, e', he', -⟩ | ⟨-, he⟩
    · exact h.present he'
    · exact h.present he

theorem sweep (h : c.Tidy) : c.sweep.2.Tidy :=
  ⟨h.toConsistent.sweep, h.timed.sweep, fun hn => h.present (get?_sweep hn)⟩

theorem store (h : c.Tidy) (hn : c.isRetired n.file = false) :
    (c.store n x c.generation).Tidy where
  toConsistent := h.toConsistent.store (h.timed.isValid n.file x.deps)
  timed := by
    refine h.timed.of_unedited ⟨rfl, rfl, rfl, rfl⟩ fun {m e} hm => ?_
    simp only [Cache.store, Table.get?_insert] at hm
    split at hm
    · exact Nat.le_of_eq (congrArg Entry.generation (Option.some.inj hm)).symm
    · exact h.timed.entry hm
  present {m e} hm := by
    simp only [Cache.store, Table.get?_insert] at hm
    split at hm
    next heq => exact heq ▸ hn
    · exact h.present hm

/-- Counters and records have no part in it. -/
theorem relabel (h : c.Tidy) (index : Table QName Record) (counters : CacheCounters) :
    Tidy { c with index, counters } :=
  ⟨⟨h.valid, h.registered⟩, ⟨h.timed.cleared, h.timed.invalidated, h.timed.entry⟩, h.present⟩

theorem invalidate (h : c.Tidy) (f : FileId) : (c.invalidate f).Tidy where
  toConsistent := h.toConsistent.invalidate f
  timed := h.timed.invalidate f
  present hn := h.present (get?_invalidate.1 hn).1

theorem retire (h : c.Tidy) (f : FileId) : (c.retire f).Tidy where
  valid := (h.invalidate f).valid
  registered := (h.invalidate f).registered
  timed := h.timed.retire f
  present {n e} hn := by
    obtain ⟨hold, hfile, -⟩ := get?_invalidate.1 hn
    have hgone := h.present hold
    simp only [isRetired, List.contains_eq_mem, decide_eq_false_iff_not] at hgone ⊢
    exact fun hmem => (List.mem_insert_iff.1 hmem).elim hfile hgone

theorem revive (h : c.Tidy) (f : FileId) : (c.revive f).Tidy where
  valid := h.valid
  registered := h.registered
  timed := h.timed.revive f
  present hn := by
    have hgone := h.present hn
    simp only [isRetired, List.contains_eq_mem, decide_eq_false_iff_not] at hgone ⊢
    exact fun hmem => hgone (List.mem_filter.1 hmem).1

theorem clear (h : c.Tidy) : c.clear.Tidy := .of_entries_eq_empty h.timed.clear rfl

end Tidy

/-! ## Live files -/

/-- A tidy cache in which none of the files is gone. -/
structure Ready (files : List FileId) (c : Cache) : Prop where
  tidy : c.Tidy
  live : ∀ f ∈ files, f ∉ c.retired

namespace Ready

variable {files files' : List FileId}

theorem of_retired (h : c.Ready files) (htidy : c'.Tidy) (hretired : c'.retired = c.retired) :
    c'.Ready files :=
  ⟨htidy, by rw [hretired]; exact h.live⟩

theorem fetch (h : c.Ready files) (n : NodeId) : (c.fetch n).2.Ready files := by
  obtain ⟨entries, tick, counters, hfetch⟩ := c.exists_fetch n
  exact h.of_retired (h.tidy.fetch n) (by rw [hfetch])

theorem sweep (h : c.Ready files) : c.sweep.2.Ready files := h.of_retired h.tidy.sweep rfl

theorem store (h : c.Ready files) (hn : n.file ∈ files) :
    (c.store n x c.generation).Ready files := by
  refine h.of_retired (h.tidy.store ?_) rfl
  simpa [isRetired] using h.live n.file hn

theorem relabel (h : c.Ready files) (index : Table QName Record) (counters : CacheCounters) :
    Ready files { c with index, counters } := h.of_retired (h.tidy.relabel index counters) rfl

theorem invalidate (h : c.Ready files) (f : FileId) : (c.invalidate f).Ready files :=
  h.of_retired (h.tidy.invalidate f) rfl

theorem clear (h : c.Ready files) : c.clear.Ready files := h.of_retired h.tidy.clear rfl

/-- A file that is not among the live ones any more may be given up. -/
theorem retire (h : c.Ready files) (hfiles : ∀ g ∈ files', g ∈ files ∧ g ≠ f) :
    (c.retire f).Ready files' := by
  refine ⟨h.tidy.retire f, fun g hg hmem => ?_⟩
  obtain ⟨hg, hne⟩ := hfiles g hg
  exact (List.mem_insert_iff.1 hmem).elim hne (h.live g hg)

theorem revive (h : c.Ready files) (hfiles : ∀ g ∈ files', g ∈ files ∨ g = f) :
    (c.revive f).Ready files' := by
  refine ⟨h.tidy.revive f, fun g hg hmem => ?_⟩
  simp only [Cache.revive, List.mem_filter, decide_eq_true_eq] at hmem
  rcases hfiles g hg with hg | rfl
  · exact h.live g hg hmem.1
  · exact hmem.2 rfl

end Ready

/-! ## Twins -/

/-- Two caches for the same live files that remember the same. -/
structure Twin (files : List FileId) (c c' : Cache) : Prop where
  left : c.Ready files
  right : c'.Ready files
  settings : c'.settings = c.settings
  memory : c'.memory = c.memory
  dependents : c'.dependents = c.dependents
  records : ∀ q, c'.record? q = c.record? q

namespace Twin

variable {files files' : List FileId}

theorem refl (h : c.Ready files) : Twin files c c := ⟨h, h, rfl, rfl, rfl, fun _ => rfl⟩

theorem mono (h : Twin files c c') (hfiles : ∀ g ∈ files', g ∈ files) : Twin files' c c' :=
  ⟨⟨h.left.tidy, fun g hg => h.left.live g (hfiles g hg)⟩,
    ⟨h.right.tidy, fun g hg => h.right.live g (hfiles g hg)⟩, h.settings, h.memory, h.dependents,
    h.records⟩

theorem served? (h : Twin files c c') (n : NodeId) : c'.served? n = c.served? n := by
  rw [h.left.tidy.served?_eq_lookup, h.right.tidy.served?_eq_lookup, h.memory]

theorem size (h : Twin files c c') : c'.size = c.size := by
  rw [← length_memory, ← length_memory, h.memory]

theorem contains (h : Twin files c c') (n : NodeId) :
    c'.entries.contains n = c.entries.contains n := by
  have hserved := h.served? n
  rw [h.left.tidy.served?_eq, h.right.tidy.served?_eq] at hserved
  simpa [Table.contains] using congrArg Option.isSome hserved

theorem fetch (h : Twin files c c') (n : NodeId) : Twin files (c.fetch n).2 (c'.fetch n).2 := by
  have hmemory : (c'.fetch n).2.memory = (c.fetch n).2.memory := by
    rw [h.left.tidy.memory_fetch, h.right.tidy.memory_fetch, h.served?, h.memory]
  obtain ⟨entries, tick, counters, hfetch⟩ := c.exists_fetch n
  obtain ⟨entries', tick', counters', hfetch'⟩ := c'.exists_fetch n
  refine ⟨h.left.fetch n, h.right.fetch n, ?_, hmemory, ?_, ?_⟩ <;> rw [hfetch, hfetch']
  · exact h.settings
  · exact h.dependents
  · exact h.records

theorem sweep (h : Twin files c c') : Twin files c.sweep.2 c'.sweep.2 where
  left := h.left.sweep
  right := h.right.sweep
  settings := h.settings
  memory := by rw [h.left.tidy.memory_sweep, h.right.tidy.memory_sweep, h.memory, h.settings]
  dependents := by
    simp only [Cache.sweep, h.left.tidy.filter_isLive, h.right.tidy.filter_isLive, h.dependents,
      h.contains]
  records := h.records

/-- A sweep drops as much from the one as from the other. -/
theorem sweep_fst (h : Twin files c c') : c'.sweep.1 = c.sweep.1 := by
  have hdropped : ∀ c : Cache, c.sweep.1 = c.size - c.sweep.2.size := fun _ => rfl
  rw [hdropped, hdropped, h.size, h.sweep.size]

theorem makeRoom (h : Twin files c c') : Twin files c.makeRoom c'.makeRoom := by
  unfold Cache.makeRoom
  rw [h.settings, h.size]
  split
  · exact h.sweep
  · exact h

theorem store (h : Twin files c c') (hn : n.file ∈ files) (x : Cached) :
    Twin files (c.store n x c.generation) (c'.store n x c'.generation) where
  left := h.left.store hn
  right := h.right.store hn
  settings := h.settings
  memory := by rw [memory_store, memory_store, h.memory]
  dependents := by simp only [Cache.store, h.dependents]
  records := h.records

/-- Indices that agree may be put in the place of the old ones. -/
theorem relabel (h : Twin files c c') {index index' : Table QName Record}
    (hindex : ∀ q, index'.get? q = index.get? q) (counters counters' : CacheCounters) :
    Twin files { c with index, counters } { c' with index := index', counters := counters' } where
  left := h.left.relabel index counters
  right := h.right.relabel index' counters'
  settings := h.settings
  memory := h.memory
  dependents := h.dependents
  records := hindex

/-- Each cache keeps a result under its own generation, and both admit it or neither. -/
theorem keep (h : Twin files c c') (hn : n.file ∈ files) (ty : Option Ty) (read : List FileId) :
    Twin files (c.keep n ty c.generation read) (c'.keep n ty c'.generation read) := by
  cases ty with
  | none => exact h
  | some ty =>
    simp only [Cache.keep, Cache.insert, h.left.tidy.timed.isValid, h.right.tidy.timed.isValid,
      Bool.not_true, Bool.or_false]
    split
    · exact h.relabel h.records _ _
    · have hroom := h.makeRoom.store hn ⟨ty, otherFiles n.file read⟩
      rwa [(Unedited.makeRoom c).generation, (Unedited.makeRoom c').generation] at hroom

theorem indexRecord (h : Twin files c c') (q : QName) (r : Record) :
    Twin files (c.indexRecord q r) (c'.indexRecord q r) := by
  refine h.relabel (fun q' => ?_) _ _
  rw [Table.get?_insert, Table.get?_insert]
  exact ite_congr rfl (fun _ => rfl) fun _ => h.records q'

theorem invalidate (h : Twin files c c') (f : FileId) :
    Twin files (c.invalidate f) (c'.invalidate f) where
  left := h.left.invalidate f
  right := h.right.invalidate f
  settings := h.settings
  memory := by
    have key : ∀ c : Cache, (c.invalidate f).memory = c.memory.filter fun r =>
        r.1.file ≠ f && !c.dependents.contains (f, r.1) := by
      intro c
      simp only [Cache.memory, List.filter_map]
      rfl
    rw [key, key, h.memory, h.dependents]
  dependents := by simp only [Cache.invalidate, h.dependents]
  records := h.records

theorem retire (h : Twin files c c') (hfiles : ∀ g ∈ files', g ∈ files ∧ g ≠ f) :
    Twin files' (c.retire f) (c'.retire f) :=
  let h' := h.invalidate f
  ⟨h.left.retire hfiles, h.right.retire hfiles, h'.settings, h'.memory, h'.dependents, h'.records⟩

theorem revive (h : Twin files c c') (hfiles : ∀ g ∈ files', g ∈ files ∨ g = f) :
    Twin files' (c.revive f) (c'.revive f) :=
  ⟨h.left.revive hfiles, h.right.revive hfiles, h.settings, h.memory, h.dependents, h.records⟩

theorem clear (h : Twin files c c') : Twin files c.clear c'.clear :=
  ⟨h.left.clear, h.right.clear, h.settings, rfl, rfl, fun _ => rfl⟩

end Twin

end Cache

end MoveTyping
