import Mathlib.Order.MinMax
import MoveTyping.Proofs.Cache.Memory
import MoveTyping.Proofs.Cache.Operations

/-!
# How large a cache grows

An insertion into a full cache sweeps it first, and a sweep shrinks it to its low watermark. So the
new entry has room if the watermark is below the maximum. A watermark of a hundred percent is not:
nothing is dropped from a full cache of live entries, and the new one is stored on top of them.

## Main definitions

* `Cache.byUse` — the entries in the order in which a sweep drops them.
* `Cache.peak` — the largest size that operations can lead to.
* `Cache.fill` — operations that lead to it.
-/

namespace MoveTyping

namespace Table

variable {κ α : Type} [DecidableEq κ] {t : Table κ α} {k : κ}

theorem size_insert_le (t : Table κ α) (k : κ) (v : α) : (t.insert k v).size ≤ t.size + 1 := by
  rw [size_insert]
  exact Nat.succ_le_succ (size_filter_le _ t)

/-- A key that has a value keeps its row. -/
theorem size_insert_of_get?_eq_some {v : α} (h : t.get? k = some v) (v' : α) :
    (t.insert k v').size ≤ t.size := by
  rw [size_insert]
  have hrow : (k, v) ∈ t.rows := get?_eq_some_iff.1 h
  exact List.length_filter_lt_length_iff_exists.2 ⟨_, hrow, by simp⟩

theorem size_insert_of_get?_eq_none (h : t.get? k = none) (v : α) :
    (t.insert k v).size = t.size + 1 := by
  rw [size_insert]
  refine congrArg (· + 1) (congrArg List.length (List.filter_eq_self.2 fun r hr => ?_))
  refine decide_eq_true fun hk => ?_
  have hrow : t.get? r.1 = some r.2 := get?_eq_some_iff.2 hr
  rw [hk, h] at hrow
  cases hrow

end Table

/-! ## The low watermark -/

namespace CacheSettings

theorem lowWatermark_le (s : CacheSettings) : s.lowWatermark ≤ s.maxEntries := by
  have hpercent : s.maxEntries * min s.lowWatermarkPercent 100 ≤ s.maxEntries * 100 :=
    Nat.mul_le_mul_left _ (Nat.min_le_right ..)
  exact Nat.div_le_of_le_mul (by omega)

/-- The watermark is below the maximum unless it is a hundred percent. The product of the two stays
at the largest word, so for the largest caches even a hundred percent is less. -/
theorem lowWatermark_lt_iff {s : CacheSettings} (h : 0 < s.maxEntries) :
    s.lowWatermark < s.maxEntries ↔
      s.lowWatermarkPercent < 100 ∨ UInt64.size ≤ s.maxEntries * 100 := by
  have hpercent : s.maxEntries * min s.lowWatermarkPercent 100 < s.maxEntries * 100 ↔
      s.lowWatermarkPercent < 100 := by
    rw [Nat.mul_lt_mul_left h]
    omega
  have hword : 0 < UInt64.size := by decide
  rw [lowWatermark, Nat.div_lt_iff_lt_mul (by decide), min_lt_iff, hpercent]
  omega

end CacheSettings

theorem Settings.maxEntries_pos {s : Settings} (h : s.validate = .ok s) :
    0 < s.cache.maxEntries := by
  refine Nat.pos_of_ne_zero fun hzero => ?_
  rw [validate, violation?, if_pos hzero] at h
  cases h

namespace Cache

variable {c : Cache} {n : NodeId}

/-! ## What an operation does to the size -/

theorem byUse_perm (entries : Table NodeId Entry) : (byUse entries).Perm entries.rows :=
  arrange_perm entries.rows

theorem pairwise_byUse (entries : Table NodeId Entry) :
    (byUse entries).Pairwise fun a b => a.2.lastUsed ≤ b.2.lastUsed :=
  pairwise_arrange (fun _ _ => rfl) entries.rows

/-- The oldest entries are dropped, and what is left are those that come after them. -/
theorem rows_shrink_perm (entries : Table NodeId Entry) (low : Nat) :
    (shrink entries low).rows.Perm ((byUse entries).drop (entries.size - low)) := by
  unfold shrink
  split
  next h =>
    rw [Nat.sub_eq_zero_of_le h]
    exact (byUse_perm entries).symm
  next h =>
    let count := entries.size - low
    let kept : NodeId × Entry → Bool := fun r => !(oldest entries count).contains r.1
    have hnodup : ((byUse entries).map Prod.fst).Nodup :=
      ((byUse_perm entries).map Prod.fst).nodup_iff.2 entries.nodup
    have hdropped : ((byUse entries).take count).filter kept = [] := by
      refine List.filter_eq_nil_iff.2 fun r hr => ?_
      have hold : r.1 ∈ oldest entries count := List.mem_map_of_mem hr
      simp [kept, hold]
    -- no node stands both before the cut and behind it
    have hdisjoint : ∀ a ∈ oldest entries count,
        ∀ b ∈ ((byUse entries).drop count).map Prod.fst, a ≠ b := by
      rw [← List.take_append_drop count (byUse entries), List.map_append] at hnodup
      exact (List.nodup_append.1 hnodup).2.2
    have hkept : ((byUse entries).drop count).filter kept = (byUse entries).drop count := by
      refine List.filter_eq_self.2 fun r hr => ?_
      have hnew : r.1 ∉ oldest entries count := fun hold =>
        hdisjoint _ hold _ (List.mem_map_of_mem hr) rfl
      simp [kept, hnew]
    calc (entries.rows.filter kept).Perm ((byUse entries).filter kept) :=
          ((byUse_perm entries).filter kept).symm
      _ = (byUse entries).drop count := by
          rw [← List.take_append_drop count (byUse entries), List.filter_append, hdropped,
            List.nil_append, List.take_append_drop, hkept]

theorem size_shrink (entries : Table NodeId Entry) (low : Nat) :
    (shrink entries low).size = min entries.size low := by
  have hlength : (byUse entries).length = entries.size := (byUse_perm entries).length_eq
  rw [Table.size, (rows_shrink_perm entries low).length_eq, List.length_drop, hlength]
  omega

theorem size_shrink_le (entries : Table NodeId Entry) (low : Nat) :
    (shrink entries low).size ≤ low := by
  rw [size_shrink]
  exact Nat.min_le_right ..

theorem size_fetch_le (c : Cache) (n : NodeId) : (c.fetch n).2.size ≤ c.size := by
  unfold fetch
  cases hn : c.entries.get? n with
  | none => exact Nat.le_refl _
  | some e =>
    dsimp only
    split
    · exact Table.size_insert_of_get?_eq_some hn _
    · exact Table.size_filter_le ..

theorem size_sweep_le (c : Cache) : c.sweep.2.size ≤ c.settings.lowWatermark := size_shrink_le ..

theorem size_store_le (c : Cache) (n : NodeId) (x : Cached) (generation : Nat) :
    (c.store n x generation).size ≤ c.size + 1 := Table.size_insert_le ..

/-- The largest size of a cache: what was left by a sweep and one more. -/
def peak (s : CacheSettings) : Nat := max s.maxEntries (s.lowWatermark + 1)

theorem size_makeRoom_lt (c : Cache) : c.makeRoom.size < peak c.settings := by
  unfold makeRoom peak
  split
  · exact lt_max_of_lt_right (Nat.lt_succ_of_le c.size_sweep_le)
  next h => exact lt_max_of_lt_left (Nat.lt_of_not_le h)

/-- The cache has the settings and is not larger than they let it grow. -/
def Within (s : CacheSettings) (c : Cache) : Prop := c.settings = s ∧ c.size ≤ peak s

theorem Within.of_size_le {s : CacheSettings} {c' : Cache} (h : Within s c)
    (hsettings : c'.settings = c.settings) (hsize : c'.size ≤ c.size) : Within s c' :=
  ⟨hsettings.trans h.1, hsize.trans h.2⟩

theorem within_ofSettings (s : CacheSettings) : Within s (ofSettings s) := ⟨rfl, Nat.zero_le _⟩

theorem Within.insert {s : CacheSettings} (h : Within s c) (n : NodeId) (ty : Ty)
    (generation : Nat) (files : List FileId) : Within s (c.insert n ty generation files).2 := by
  refine ⟨(Unedited.insert c n ty generation files).settings.trans h.1, ?_⟩
  unfold Cache.insert
  dsimp only
  split
  · exact h.2
  · refine (size_store_le ..).trans ?_
    rw [← h.1]
    exact c.size_makeRoom_lt

theorem invariant_within (s : CacheSettings) : Invariant (Within s) where
  fetch node h := h.of_size_le (Unedited.fetch _ node).settings (size_fetch_le _ node)
  insert node ty generation files h := h.insert node ty generation files
  invalidate _ h := h.of_size_le rfl (Table.size_filter_le ..)
  retire _ h := h.of_size_le rfl (Table.size_filter_le ..)
  revive _ h := h.of_size_le rfl (Nat.le_refl _)
  clear h := h.of_size_le rfl (Nat.zero_le _)
  sweep h := ⟨h.1, (size_sweep_le _).trans (by rw [h.1, peak]; omega)⟩
  index _ h := h

theorem size_performAll_le (s : CacheSettings) (ops : List Operation) :
    ((ofSettings s).performAll ops).size ≤ peak s :=
  ((invariant_within s).performAll (within_ofSettings s) ops).2

/-! ## The largest size is reached -/

/-- Types for the first nodes of a file. -/
def fill (count : Nat) : List Operation :=
  (List.range count).map fun i => .call (.access (.insert ⟨0, i⟩ (.prim .u8) 1 []))

/-- A cache without edits that holds entries for the first nodes of a file. -/
structure Filled (s : CacheSettings) (count : Nat) (c : Cache) : Prop where
  tidy : c.Tidy
  settings : c.settings = s
  generation : c.generation = 1
  retired : c.retired = []
  size : c.size = count
  free : ∀ i, count ≤ i → c.entries.get? ⟨0, i⟩ = none

namespace Filled

variable {s : CacheSettings} {count : Nat}

theorem ofSettings (s : CacheSettings) : Filled s 0 (ofSettings s) :=
  ⟨.of_entries_eq_empty (.ofSettings s) rfl, rfl, rfl, rfl, rfl, fun _ _ => rfl⟩

/-- All entries are live, and not more than a sweep leaves. -/
theorem entries_makeRoom (h : Filled s count c) (hcount : count < peak s) :
    c.makeRoom.entries = c.entries := by
  unfold Cache.makeRoom
  split
  next hfull =>
    have hlow : c.entries.size ≤ c.settings.lowWatermark := by
      rw [h.settings, h.size] at hfull
      rw [show c.entries.size = count from h.size, h.settings]
      exact Nat.le_of_lt_succ ((lt_max_iff.1 hcount).resolve_left (Nat.not_lt_of_le hfull))
    change shrink (c.entries.filter c.isLive) c.settings.lowWatermark = c.entries
    rw [h.tidy.filter_isLive, shrink, if_pos hlow]
  next => rfl

theorem makeRoom (h : Filled s count c) (hcount : count < peak s) :
    Filled s count c.makeRoom := by
  have hentries := h.entries_makeRoom hcount
  have hunedited := Unedited.makeRoom c
  refine ⟨?_, hunedited.settings.trans h.settings, hunedited.generation.trans h.generation, ?_, ?_,
    ?_⟩
  · unfold Cache.makeRoom
    split
    · exact h.tidy.sweep
    · exact h.tidy
  · unfold Cache.makeRoom
    split <;> exact h.retired
  · rw [Cache.size, hentries]
    exact h.size
  · rw [hentries]
    exact h.free

theorem store (h : Filled s count c) (x : Cached) :
    Filled s (count + 1) (c.store ⟨0, count⟩ x c.generation) where
  tidy := h.tidy.store (by rw [isRetired, h.retired]; rfl)
  settings := h.settings
  generation := h.generation
  retired := h.retired
  size := by
    rw [← h.size]
    exact Table.size_insert_of_get?_eq_none (h.free _ (Nat.le_of_eq h.size.symm)) _
  free i hi := by
    have hne : (⟨0, i⟩ : NodeId) ≠ ⟨0, count⟩ := by
      rintro ⟨⟩
      omega
    rw [Cache.store, Table.get?_insert, if_neg hne]
    exact h.free i (Nat.le_of_succ_le hi)

theorem insert (h : Filled s count c) (hcount : count < peak s) :
    Filled s (count + 1) (c.insert ⟨0, count⟩ (.prim .u8) 1 []).2 := by
  have hvalid : c.isValid 0 1 [] = true := by
    rw [← h.generation]
    exact h.tidy.timed.isValid 0 []
  have hroom := h.makeRoom hcount
  have hinsert : (c.insert ⟨0, count⟩ (.prim .u8) 1 []).2 =
      c.makeRoom.store ⟨0, count⟩ ⟨.prim .u8, []⟩ c.makeRoom.generation := by
    rw [hroom.generation, Cache.insert]
    exact congrArg Prod.snd (if_neg (by simp [otherFiles, hvalid, Ty.hasUnknown]))
  rw [hinsert]
  exact hroom.store _

end Filled

theorem filled_performAll (s : CacheSettings) {count : Nat} (h : count ≤ peak s) :
    Filled s count ((ofSettings s).performAll (fill count)) := by
  induction count with
  | zero => exact .ofSettings s
  | succ count ih =>
    rw [fill, List.range_succ, List.map_append, performAll_append]
    exact (ih (Nat.le_of_succ_le h)).insert h

/-- The sizes that operations can lead to are bounded by exactly the peak. -/
theorem forall_size_le_iff (s : CacheSettings) (bound : Nat) :
    (∀ ops, ((ofSettings s).performAll ops).size ≤ bound) ↔ peak s ≤ bound := by
  refine ⟨fun h => ?_, fun h ops => Nat.le_trans (size_performAll_le s ops) h⟩
  rw [← (filled_performAll s (Nat.le_refl (peak s))).size]
  exact h _

theorem peak_le_maxEntries_iff {s : CacheSettings} (h : 0 < s.maxEntries) :
    peak s ≤ s.maxEntries ↔
      s.lowWatermarkPercent < 100 ∨ UInt64.size ≤ s.maxEntries * 100 := by
  rw [← CacheSettings.lowWatermark_lt_iff h, peak, max_le_iff]
  exact and_iff_right (Nat.le_refl _)

theorem peak_le (s : CacheSettings) : peak s ≤ s.maxEntries + 1 :=
  max_le (Nat.le_succ _) (Nat.succ_le_succ s.lowWatermark_le)

/-- Under accepted settings the maximum holds after all operations just if the low watermark is less
than a hundred percent or the maximum is too large for the product of the two, and it is never
exceeded by more than one entry. -/
theorem size_le_maxEntries_iff {s : Settings} (h : s.validate = .ok s) :
    ((∀ ops, ((ofSettings s.cache).performAll ops).size ≤ s.cache.maxEntries) ↔
        s.cache.lowWatermarkPercent < 100 ∨ UInt64.size ≤ s.cache.maxEntries * 100) ∧
      ∀ ops, ((ofSettings s.cache).performAll ops).size ≤ s.cache.maxEntries + 1 := by
  constructor
  · rw [forall_size_le_iff]
    exact peak_le_maxEntries_iff (Settings.maxEntries_pos h)
  · exact (forall_size_le_iff s.cache _).2 (peak_le s.cache)

/-- The standard settings keep to their maximum, and those with one entry and a full watermark do
not. -/
theorem size_le_maxEntries_iff_standard :
    (∀ ops, ((ofSettings {}).performAll ops).size ≤ 100000) ∧
      ¬ ∀ ops, ((ofSettings ⟨1, 100⟩).performAll ops).size ≤ 1 :=
  ⟨(size_le_maxEntries_iff (s := {}) rfl).1.2 (by decide),
    fun h => absurd ((size_le_maxEntries_iff (s := { cache := ⟨1, 100⟩ }) rfl).1.1 h) (by decide)⟩

/-- Two types are stored in a cache with a maximum of one. -/
theorem size_above_maxEntries :
    Settings.validate { cache := ⟨1, 100⟩ } = .ok { cache := ⟨1, 100⟩ } ∧
      ((ofSettings ⟨1, 100⟩).performAll
        [.call (.access (.insert ⟨0, 0⟩ (.prim .u8) 1 [])),
          .call (.access (.insert ⟨0, 1⟩ (.prim .u8) 1 []))]).size = 2 := by
  refine ⟨rfl, ?_⟩
  decide +kernel

end Cache

end MoveTyping
