import MoveTyping.Cache.Lookup

/-!
# What a cache serves

A cache is used through its look-ups, so the state of a cache is described by what a look-up would
serve for each node. Every operation is described by its effect on that view: a look-up changes
nothing, a sweep only forgets, an insertion adds at most the inserted type, and an edit forgets at
least what was derived from the edited file.

## Main definitions

* `Cache.served?` — the view.
* `Cache.Unedited` — no edit lies between two states of a cache.
* `Cache.WellTimed` — no mark lies in the future.
-/

namespace MoveTyping.Cache

variable {c c' c'' : Cache} {n m : NodeId} {x : Cached} {f : FileId}

/-- What a look-up of the node would serve. -/
def served? (c : Cache) (n : NodeId) : Option Cached := (c.fetch n).1

theorem served?_eq (c : Cache) (n : NodeId) :
    c.served? n = ((c.entries.get? n).filter fun e => c.isValid n.file e.generation e.deps).map
      Entry.toCached := by
  unfold served? fetch
  cases hn : c.entries.get? n with
  | none => rfl
  | some e => cases hv : c.isValid n.file e.generation e.deps <;> simp [Option.filter, hv]

theorem served?_eq_some_iff :
    c.served? n = some x ↔ ∃ e, c.entries.get? n = some e ∧
      c.isValid n.file e.generation e.deps ∧ e.toCached = x := by
  simp [served?_eq, and_assoc]

/-- What is served depends on the entries and the marks of edits alone. -/
theorem served?_congr (hentries : c'.entries = c.entries) (hcleared : c'.clearedAt = c.clearedAt)
    (hinvalidated : c'.invalidatedAt = c.invalidatedAt) (n : NodeId) :
    c'.served? n = c.served? n := by
  have hcurrent : ∀ generation, c'.isCurrent generation = c.isCurrent generation := by
    intro generation
    funext f
    simp only [isCurrent, hinvalidated]
  simp only [served?_eq, isValid, hentries, hcleared, hcurrent]

@[simp] theorem served?_ofSettings (settings : CacheSettings) (n : NodeId) :
    (ofSettings settings).served? n = none := rfl

/-! ## Files in order -/

@[simp] theorem mem_addFile {file g : FileId} {files : List FileId} :
    g ∈ addFile file files ↔ g = file ∨ g ∈ files := by
  fun_induction addFile file files <;> grind

@[simp] theorem mem_otherFiles {own g : FileId} {files : List FileId} :
    g ∈ otherFiles own files ↔ g ∈ files ∧ g ≠ own := by
  unfold otherFiles
  induction files <;> grind [mem_addFile]

theorem pairwise_addFile {file : FileId} {files : List FileId} (h : files.Pairwise (· < ·)) :
    (addFile file files).Pairwise (· < ·) := by
  fun_induction addFile file files <;> grind [mem_addFile, List.pairwise_cons]

theorem pairwise_otherFiles (own : FileId) (files : List FileId) :
    (otherFiles own files).Pairwise (· < ·) := by
  unfold otherFiles
  induction files.filter (· ≠ own) with
  | nil => exact .nil
  | cons file files ih => exact pairwise_addFile ih

/-- Which other files there are does not depend on the order in which they were named. -/
theorem otherFiles_congr {own : FileId} {files files' : List FileId}
    (h : ∀ g, g ≠ own → (g ∈ files ↔ g ∈ files')) : otherFiles own files = otherFiles own files' := by
  have hperm : (otherFiles own files).Perm (otherFiles own files') := by
    refine (List.perm_ext_iff_of_nodup ?_ ?_).2 fun g => ?_
    · exact (pairwise_otherFiles own files).imp Nat.ne_of_lt
    · exact (pairwise_otherFiles own files').imp Nat.ne_of_lt
    · simp only [mem_otherFiles]
      exact and_congr_left (h g)
  exact hperm.eq_of_pairwise (fun _ _ _ _ hab hba => absurd hba (Nat.lt_asymm hab))
    (pairwise_otherFiles own files) (pairwise_otherFiles own files')

/-! ## Edits

A file is marked with the generation of its last edit. -/

/-- No edit lies between two states: they have the same marks. -/
structure Unedited (c c' : Cache) : Prop where
  settings : c'.settings = c.settings
  generation : c'.generation = c.generation
  clearedAt : c'.clearedAt = c.clearedAt
  invalidatedAt : c'.invalidatedAt = c.invalidatedAt

namespace Unedited

theorem refl (c : Cache) : Unedited c c := ⟨rfl, rfl, rfl, rfl⟩

theorem trans (h : Unedited c c') (h' : Unedited c' c'') : Unedited c c'' :=
  ⟨h'.settings.trans h.settings, h'.generation.trans h.generation,
    h'.clearedAt.trans h.clearedAt, h'.invalidatedAt.trans h.invalidatedAt⟩

theorem isValid (h : Unedited c c') (file : FileId) (generation : Nat) (deps : List FileId) :
    c'.isValid file generation deps = c.isValid file generation deps := by
  have hcurrent : c'.isCurrent generation = c.isCurrent generation := by
    funext f
    simp only [isCurrent, h.invalidatedAt]
  simp only [Cache.isValid, h.clearedAt, hcurrent]

theorem sweep (c : Cache) : Unedited c c.sweep.2 := ⟨rfl, rfl, rfl, rfl⟩

theorem makeRoom (c : Cache) : Unedited c c.makeRoom := by
  unfold Cache.makeRoom
  split
  · exact sweep c
  · exact refl c

theorem fetch (c : Cache) (n : NodeId) : Unedited c (c.fetch n).2 := by
  unfold Cache.fetch
  split
  · split <;> exact ⟨rfl, rfl, rfl, rfl⟩
  · exact ⟨rfl, rfl, rfl, rfl⟩

theorem insert (c : Cache) (n : NodeId) (ty : Ty) (generation : Nat) (files : List FileId) :
    Unedited c (c.insert n ty generation files).2 := by
  simp only [Cache.insert]
  split
  · exact ⟨rfl, rfl, rfl, rfl⟩
  · obtain ⟨hs, hg, hc, hi⟩ := makeRoom c
    exact ⟨hs, hg, hc, hi⟩

theorem keep (c : Cache) (n : NodeId) (ty : Option Ty) (generation : Nat) (files : List FileId) :
    Unedited c (c.keep n ty generation files) := by
  cases ty with
  | some ty => exact insert c n ty generation files
  | none => exact refl c

end Unedited

/-- No mark of a cache is later than its generation. -/
structure WellTimed (c : Cache) : Prop where
  cleared : c.clearedAt ≤ c.generation
  invalidated : ∀ {f g}, c.invalidatedAt.get? f = some g → g ≤ c.generation
  entry : ∀ {n e}, c.entries.get? n = some e → e.generation ≤ c.generation

theorem WellTimed.ofSettings (settings : CacheSettings) : (ofSettings settings).WellTimed :=
  ⟨Nat.zero_le _, (fun h => nomatch h), (fun h => nomatch h)⟩

theorem WellTimed.isCurrent (hc : c.WellTimed) (f : FileId) : c.isCurrent c.generation f := by
  unfold Cache.isCurrent
  cases h : c.invalidatedAt.get? f with
  | none => rfl
  | some g => simpa using hc.invalidated h

/-- A result of the current generation is valid whatever it was derived from. -/
theorem WellTimed.isValid (hc : c.WellTimed) (file : FileId) (deps : List FileId) :
    c.isValid file c.generation deps := by
  simp [Cache.isValid, hc.cleared, hc.isCurrent]

/-- Between edits it is enough that the entries are well timed. -/
theorem WellTimed.of_unedited (hc : c.WellTimed) (h : Unedited c c')
    (he : ∀ {n e}, c'.entries.get? n = some e → e.generation ≤ c.generation) : c'.WellTimed where
  cleared := by rw [h.clearedAt, h.generation]; exact hc.cleared
  invalidated hg := by
    rw [h.invalidatedAt] at hg
    rw [h.generation]
    exact hc.invalidated hg
  entry hn := by rw [h.generation]; exact he hn

/-! ## Look-ups -/

/-- A look-up touches the entries alone, apart from what it counts. -/
theorem exists_fetch (c : Cache) (n : NodeId) :
    ∃ entries tick counters, (c.fetch n).2 = { c with entries, tick, counters } := by
  unfold fetch
  split
  · split <;> exact ⟨_, _, _, rfl⟩
  · exact ⟨_, _, _, rfl⟩

@[simp] theorem dependents_fetch (c : Cache) (n : NodeId) :
    (c.fetch n).2.dependents = c.dependents := by
  obtain ⟨entries, tick, counters, hfetch⟩ := c.exists_fetch n
  rw [hfetch]

@[simp] theorem served?_fetch (c : Cache) (m n : NodeId) :
    (c.fetch m).2.served? n = c.served? n := by
  simp only [served?_eq, (Unedited.fetch c m).isValid]
  unfold fetch
  split
  · split <;> simp only [Table.get?_insert, Table.get?_erase] <;> split <;>
      simp_all [Option.filter]
  · rfl

theorem WellTimed.fetch (hc : c.WellTimed) (m : NodeId) : (c.fetch m).2.WellTimed := by
  refine hc.of_unedited (.fetch c m) fun {n e} hn => ?_
  unfold Cache.fetch at hn
  split at hn
  next e' he' =>
    have := hc.entry he'
    split at hn <;> grind [Table.get?_insert, Table.get?_erase, WellTimed]
  next => exact hc.entry hn

/-! ## Sweeps -/

theorem get?_sweep {e : Entry} (h : c.sweep.2.entries.get? n = some e) :
    c.entries.get? n = some e := by
  simp only [sweep, shrink] at h
  split at h <;> simp only [Table.get?_filter, Option.filter_eq_some_iff] at h
  · exact h.1
  · exact h.1.1

theorem served?_of_sweep (h : c.sweep.2.served? n = some x) : c.served? n = some x := by
  obtain ⟨e, he, hv, rfl⟩ := served?_eq_some_iff.1 h
  rw [(Unedited.sweep c).isValid] at hv
  exact served?_eq_some_iff.2 ⟨e, get?_sweep he, hv, rfl⟩

theorem WellTimed.sweep (hc : c.WellTimed) : c.sweep.2.WellTimed :=
  hc.of_unedited (.sweep c) fun hn => hc.entry (get?_sweep hn)

theorem served?_of_makeRoom (h : c.makeRoom.served? n = some x) : c.served? n = some x := by
  unfold makeRoom at h
  split at h
  · exact served?_of_sweep h
  · exact h

theorem WellTimed.makeRoom (hc : c.WellTimed) : c.makeRoom.WellTimed := by
  unfold Cache.makeRoom
  split
  · exact hc.sweep
  · exact hc

/-! ## Insertions -/

theorem served?_store (c : Cache) (m n : NodeId) (x : Cached) (generation : Nat) :
    (c.store m x generation).served? n =
      if n = m then (if c.isValid m.file generation x.deps then some x else none)
      else c.served? n := by
  have hv : ∀ file g deps, (c.store m x generation).isValid file g deps = c.isValid file g deps :=
    fun _ _ _ => rfl
  simp only [served?_eq, hv]
  by_cases hn : n = m
  · subst hn
    cases hx : c.isValid n.file generation x.deps <;> simp [store, Option.filter, hx]
  · simp [store, Table.get?_insert, hn]

/-- Storing a type registers its node with the files that it was derived from. -/
theorem mem_dependents_store {generation : Nat} {d : FileId × NodeId} :
    d ∈ (c.store n x generation).dependents ↔ d ∈ c.dependents ∨ d.1 ∈ x.deps ∧ d.2 = n := by
  have key : ∀ (deps : List FileId) (ds : List (FileId × NodeId)),
      d ∈ deps.foldl (fun ds file => ds.insert (file, n)) ds ↔
        d ∈ ds ∨ d.1 ∈ deps ∧ d.2 = n := by
    intro deps
    induction deps with
    | nil => simp
    | cons file deps ih =>
      intro ds
      rw [List.foldl_cons, ih]
      grind
  exact key _ _

/-- When an insertion admits its type. -/
theorem insert_fst (c : Cache) (m : NodeId) (ty : Ty) (generation : Nat) (files : List FileId) :
    (c.insert m ty generation files).1 =
      (!ty.hasUnknown && c.isValid m.file generation (otherFiles m.file files)) := by
  simp only [insert]
  split <;> grind

/-- After an insertion nothing is served but the inserted type and what was served before. -/
theorem served?_of_insert {ty : Ty} {generation : Nat} {files : List FileId}
    (h : (c.insert m ty generation files).2.served? n = some x) :
    (n = m ∧ x = ⟨ty, otherFiles m.file files⟩ ∧ ty.hasUnknown = false ∧
      c.isValid m.file generation (otherFiles m.file files)) ∨ c.served? n = some x := by
  simp only [insert] at h
  split at h
  · exact .inr (.trans (served?_congr (by rfl) (by rfl) (by rfl) n) h)
  next hadmit =>
    simp only [Bool.or_eq_true, Bool.not_eq_true', not_or, Bool.not_eq_true,
      Bool.not_eq_false] at hadmit
    rw [served?_store] at h
    split at h
    next hn =>
      split at h
      · exact .inl ⟨hn, (Option.some.inj h).symm, hadmit⟩
      · exact nomatch h
    · exact .inr (served?_of_makeRoom h)

theorem served?_of_keep {ty : Option Ty} {generation : Nat} {files : List FileId}
    (h : (c.keep m ty generation files).served? n = some x) : n = m ∨ c.served? n = some x := by
  cases ty with
  | none => exact .inr h
  | some ty => exact (served?_of_insert h).imp_left And.left

/-- An admitted type is served from then on. -/
theorem served?_insert_self {ty : Ty} {generation : Nat} {files : List FileId}
    (h : (c.insert m ty generation files).1 = true) :
    (c.insert m ty generation files).2.served? m = some ⟨ty, otherFiles m.file files⟩ := by
  rw [insert_fst] at h
  simp only [Bool.and_eq_true, Bool.not_eq_true'] at h
  simp [insert, h, served?_store, (Unedited.makeRoom c).isValid]

/-- An insertion without a sweep leaves the other nodes as they were. -/
theorem served?_insert_of_ne {ty : Ty} {generation : Nat} {files : List FileId} (hn : n ≠ m)
    (hs : (c.insert m ty generation files).2.counters.sweeps = c.counters.sweeps) :
    (c.insert m ty generation files).2.served? n = c.served? n := by
  simp only [insert] at hs ⊢
  split at hs
  next h =>
    rw [if_pos h]
    exact served?_congr (by rfl) (by rfl) (by rfl) n
  next h =>
    rw [if_neg h, served?_store, if_neg hn]
    unfold makeRoom at hs ⊢
    split at hs
    · exact absurd hs (Nat.succ_ne_self _)
    next hroom => rw [if_neg hroom]

/-- Keeping a result without a sweep leaves the other nodes as they were. -/
theorem served?_keep_of_ne {ty : Option Ty} {generation : Nat} {files : List FileId} (hn : n ≠ m)
    (hs : (c.keep m ty generation files).counters.sweeps = c.counters.sweeps) :
    (c.keep m ty generation files).served? n = c.served? n := by
  cases ty with
  | none => rfl
  | some ty => exact served?_insert_of_ne hn hs

/-- A type with unknown parts is not admitted. -/
theorem served?_insert_of_hasUnknown {ty : Ty} (hty : ty.hasUnknown = true) (c : Cache)
    (m : NodeId) (generation : Nat) (files : List FileId) (n : NodeId) :
    (c.insert m ty generation files).2.served? n = c.served? n := by
  simp only [insert, hty, Bool.true_or, ↓reduceIte]
  exact served?_congr (by rfl) (by rfl) (by rfl) n

theorem WellTimed.insert (hc : c.WellTimed) (m : NodeId) (ty : Ty) {generation : Nat}
    (files : List FileId) (hg : generation ≤ c.generation) :
    (c.insert m ty generation files).2.WellTimed := by
  refine hc.of_unedited (.insert c m ty generation files) fun {n e} hn => ?_
  simp only [Cache.insert] at hn
  split at hn
  · exact hc.entry hn
  · simp only [store, Table.get?_insert] at hn
    split at hn
    · obtain rfl := Option.some.inj hn
      exact hg
    · rw [← (Unedited.makeRoom c).generation]
      exact hc.makeRoom.entry hn

/-- A known result of the current generation is kept. -/
theorem WellTimed.served?_keep (hc : c.WellTimed) (hu : Unedited c c') {ty : Ty}
    (hknown : ty.hasUnknown = false) (n : NodeId) (files : List FileId) :
    (c'.keep n (some ty) c.generation files).served? n = some ⟨ty, otherFiles n.file files⟩ := by
  refine served?_insert_self ?_
  rw [insert_fst, hknown, hu.isValid, hc.isValid]
  rfl

/-! ## Edits -/

theorem isCurrent_invalidate (c : Cache) (f g : FileId) (generation : Nat) :
    (c.invalidate f).isCurrent generation g =
      if g = f then decide (c.generation + 1 ≤ generation) else c.isCurrent generation g := by
  simp only [isCurrent, invalidate, Table.get?_insert]
  split <;> rfl

/-- After the edit of a file nothing is served that was derived from it. -/
theorem served?_of_invalidate (hc : c.WellTimed) (h : (c.invalidate f).served? n = some x) :
    c.served? n = some x ∧ f ≠ n.file ∧ f ∉ x.deps := by
  obtain ⟨e, he, hv, rfl⟩ := served?_eq_some_iff.1 h
  have he : c.entries.get? n = some e := by
    simp only [invalidate, Table.get?_filter, Option.filter_eq_some_iff] at he
    exact he.1
  have hpast := hc.entry he
  simp only [isValid, isCurrent_invalidate, List.all_eq_true, Bool.and_eq_true] at hv
  obtain ⟨hclear, hcurrent⟩ := hv
  have hother : ∀ g ∈ n.file :: e.deps, g ≠ f ∧ c.isCurrent e.generation g := by
    intro g hg
    have := hcurrent g hg
    split at this
    · simp only [decide_eq_true_eq] at this
      omega
    next hgf => exact ⟨hgf, this⟩
  refine ⟨served?_eq_some_iff.2 ⟨e, he, ?_, rfl⟩, ?_, fun hf => ?_⟩
  · simp only [isValid, List.all_eq_true, Bool.and_eq_true]
    exact ⟨hclear, fun g hg => (hother g hg).2⟩
  · exact fun hf => (hother n.file (by simp)).1 hf.symm
  · exact (hother f (List.mem_cons_of_mem _ hf)).1 rfl

/-- The edit of a file keeps what is not known to depend on it. -/
theorem served?_invalidate (h : c.served? n = some x) (hn : f ≠ n.file) (hx : f ∉ x.deps)
    (hd : (f, n) ∉ c.dependents) : (c.invalidate f).served? n = some x := by
  obtain ⟨e, he, hv, rfl⟩ := served?_eq_some_iff.1 h
  refine served?_eq_some_iff.2 ⟨e, ?_, ?_, rfl⟩
  · simp [invalidate, he, Option.filter, Ne.symm hn, hd]
  · simp only [isValid, List.all_eq_true, Bool.and_eq_true] at hv ⊢
    refine ⟨hv.1, fun g hg => ?_⟩
    have hgf : g ≠ f := by
      rintro rfl
      exact (List.mem_cons.1 hg).elim hn hx
    rw [isCurrent_invalidate, if_neg hgf]
    exact hv.2 g hg

theorem WellTimed.invalidate (hc : c.WellTimed) (f : FileId) : (c.invalidate f).WellTimed where
  cleared := Nat.le_succ_of_le hc.cleared
  invalidated {g t} ht := by
    simp only [Cache.invalidate, Table.get?_insert] at ht ⊢
    split at ht
    · exact Nat.le_of_eq (Option.some.inj ht).symm
    · exact Nat.le_succ_of_le (hc.invalidated ht)
  entry {n e} hn := by
    simp only [Cache.invalidate, Table.get?_filter, Option.filter_eq_some_iff] at hn
    exact Nat.le_succ_of_le (hc.entry hn.1)

@[simp] theorem served?_retire (c : Cache) (f : FileId) (n : NodeId) :
    (c.retire f).served? n = (c.invalidate f).served? n := by
  apply served?_congr <;> rfl

theorem WellTimed.retire (hc : c.WellTimed) (f : FileId) : (c.retire f).WellTimed :=
  let ⟨cleared, invalidated, entry⟩ := hc.invalidate f
  ⟨cleared, invalidated, entry⟩

@[simp] theorem served?_revive (c : Cache) (f : FileId) (n : NodeId) :
    (c.revive f).served? n = c.served? n := by
  apply served?_congr <;> rfl

theorem WellTimed.revive (hc : c.WellTimed) (f : FileId) : (c.revive f).WellTimed :=
  ⟨hc.cleared, hc.invalidated, hc.entry⟩

@[simp] theorem served?_clear (c : Cache) (n : NodeId) : c.clear.served? n = none := rfl

theorem WellTimed.clear (hc : c.WellTimed) : c.clear.WellTimed :=
  ⟨Nat.le_refl _, fun hg => Nat.le_succ_of_le (hc.invalidated hg), fun hn => nomatch hn⟩

/-! ## Records -/

/-- Whether a record is admitted or not, nothing but the index changes. -/
theorem exists_indexRecordAt (c : Cache) (q : QName) (r : Record) (generation : Nat) :
    ∃ index, (c.indexRecordAt q r generation).2 = { c with index } := by
  unfold indexRecordAt
  split
  · exact ⟨_, rfl⟩
  · exact ⟨c.index, rfl⟩

end MoveTyping.Cache
