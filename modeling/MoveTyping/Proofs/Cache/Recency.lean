import MoveTyping.Proofs.Cache.Bound
import MoveTyping.Proofs.Cache.Dependents

/-!
# What a sweep keeps

A node is used when a type of it is stored and when it is looked up and served. The cache does not
keep the list of these uses. It has a tick for every entry, which is the place of its last use in
that list, so the entries with the latest ticks are those that were used last.

## Main definitions

* `Cache.used?`, `Cache.uses` — the nodes that are used by calls, one after the other.
* `Cache.UsedAfter` — a node was used after the last use of another.
* `Cache.Clocked` — the ticks of a cache are the places of the last uses.
-/

namespace MoveTyping.Cache

variable {c c' : Cache} {n m : NodeId} {e e' : Entry} {past : List NodeId} {call : Call}

/-! ## Uses -/

/-- The node that is used by a call. -/
def used? (c : Cache) : Call → Option NodeId
  | .access (.fetch n) => if (c.served? n).isSome then some n else none
  | .access (.insert n ty generation files) =>
    if (c.insert n ty generation files).1 then some n else none
  | _ => none

/-- The nodes in the order of their uses, the last use at the end. -/
def uses (c : Cache) : List Call → List NodeId
  | [] => []
  | call :: calls => (c.used? call).toList ++ (c.make call).uses calls

theorem uses_concat (c : Cache) (calls : List Call) (call : Call) :
    c.uses (calls ++ [call]) = c.uses calls ++ ((c.makeAll calls).used? call).toList := by
  induction calls generalizing c with
  | nil => simp [Cache.uses]
  | cons first calls ih => simp [Cache.uses, ih]

/-- The last use of `m` comes before a use of `n`. -/
def UsedAfter (past : List NodeId) (n m : NodeId) : Prop :=
  ∃ before after, past = before ++ n :: after ∧ m ∈ before ∧ m ∉ n :: after

/-! ## Ticks -/

/-- There is one tick for every use, and an entry has the tick of the last use of its node. -/
structure Clocked (past : List NodeId) (c : Cache) : Prop where
  tick : c.tick = past.length
  last : ∀ {n e}, c.entries.get? n = some e →
    ∃ before after, past = before ++ n :: after ∧ before.length = e.lastUsed ∧ n ∉ after

namespace Clocked

theorem ofSettings (s : CacheSettings) : Clocked [] (ofSettings s) where
  tick := rfl
  last hn := nomatch hn

/-- A call that uses no node may drop entries. -/
theorem of_unused (h : Clocked past c) (hused : c.used? call = none) (htick : c'.tick = c.tick)
    (hentries : ∀ {n e}, c'.entries.get? n = some e → c.entries.get? n = some e) :
    Clocked (past ++ (c.used? call).toList) c' := by
  rw [hused, Option.toList_none, List.append_nil]
  exact ⟨htick.trans h.tick, fun hn => h.last (hentries hn)⟩

/-- The node that is used gets the next tick. -/
theorem of_used (h : Clocked past c) (hused : c.used? call = some m)
    (htick : c'.tick = c.tick + 1)
    (hentries : ∀ {n e}, c'.entries.get? n = some e →
      n = m ∧ e.lastUsed = c.tick ∨ n ≠ m ∧ c.entries.get? n = some e) :
    Clocked (past ++ (c.used? call).toList) c' := by
  rw [hused, Option.toList_some]
  refine ⟨by rw [htick, h.tick, List.length_append, List.length_singleton], fun hn => ?_⟩
  rcases hentries hn with ⟨rfl, hlast⟩ | ⟨hne, hold⟩
  · exact ⟨past, [], rfl, by rw [hlast, h.tick], List.not_mem_nil⟩
  · obtain ⟨before, after, rfl, hlast, hafter⟩ := h.last hold
    exact ⟨before, after ++ [m], by simp, hlast, by simp [hafter, hne]⟩

theorem fetch (h : Clocked past c) (m : NodeId) :
    Clocked (past ++ (c.used? (.access (.fetch m))).toList) (c.fetch m).2 := by
  by_cases hserved : (c.served? m).isSome
  · refine h.of_used (if_pos hserved) ?_ fun hn => ?_
    · obtain ⟨x, hx⟩ := Option.isSome_iff_exists.1 hserved
      obtain ⟨e, he, hvalid, -⟩ := served?_eq_some_iff.1 hx
      simp [Cache.fetch, he, hvalid]
    · rcases get?_fetch hn with ⟨heq, -, e', -, rfl⟩ | ⟨hne, hold⟩
      · exact .inl ⟨heq, rfl⟩
      · exact .inr ⟨fun heq => hne ⟨heq, hserved⟩, hold⟩
  · refine h.of_unused (if_neg hserved) ?_ fun hn => ?_
    · unfold served? at hserved
      unfold Cache.fetch at hserved ⊢
      split
      · split <;> simp_all
      · rfl
    · rcases get?_fetch hn with ⟨-, hserved', -⟩ | ⟨-, hold⟩
      · exact absurd hserved' hserved
      · exact hold

theorem insert (h : Clocked past c) (m : NodeId) (ty : Ty) (generation : Nat)
    (files : List FileId) :
    Clocked (past ++ (c.used? (.access (.insert m ty generation files))).toList)
      (c.insert m ty generation files).2 := by
  by_cases hadmitted : (c.insert m ty generation files).1 = true
  · refine h.of_used (if_pos hadmitted) ?_ fun hn => ?_
    · rw [insert_of_admitted hadmitted, store, tick_makeRoom]
    · rcases get?_insert hn with ⟨heq, -, rfl⟩ | ⟨hne, hold⟩
      · exact .inl ⟨heq, rfl⟩
      · exact .inr ⟨fun heq => hne ⟨heq, hadmitted⟩, hold⟩
  · obtain ⟨counters, hinsert⟩ := insert_of_rejected hadmitted
    rw [hinsert]
    exact h.of_unused (if_neg hadmitted) rfl id

/-- What one call does to the clock. -/
theorem make (h : Clocked past c) (call : Call) :
    Clocked (past ++ (c.used? call).toList) (c.make call) := by
  cases call with
  | access call =>
    cases call with
    | fetch m => exact h.fetch m
    | insert m ty generation files => exact h.insert m ty generation files
    | record name => exact h.of_unused rfl rfl id
    | indexAt name record generation =>
      obtain ⟨index, hindex⟩ := c.exists_indexRecordAt name record generation
      rw [Cache.make, access, hindex]
      exact h.of_unused rfl rfl id
  | upkeep call =>
    have htick : (c.maintain call).tick = c.tick := by cases call <;> rfl
    exact h.of_unused rfl htick get?_maintain

theorem makeAll (s : CacheSettings) (calls : List Call) :
    Clocked ((Cache.ofSettings s).uses calls) ((Cache.ofSettings s).makeAll calls) := by
  induction calls using List.reverseRecOn with
  | nil => exact .ofSettings s
  | append_singleton calls call ih =>
    rw [uses_concat, makeAll_append]
    exact ih.make call

/-- The later tick belongs to the node that was used later. -/
theorem usedAfter (h : Clocked past c) (hn : c.entries.get? n = some e)
    (hm : c.entries.get? m = some e') (hne : n ≠ m) (hle : e'.lastUsed ≤ e.lastUsed) :
    UsedAfter past n m := by
  obtain ⟨before, after, hpast, hlength, -⟩ := h.last hn
  obtain ⟨before', after', hpast', hlength', hlast⟩ := h.last hm
  have hlater : m ∉ n :: after := by
    intro hmem
    rcases List.mem_cons.1 hmem with heq | hmem
    · exact hne heq.symm
    · -- what comes after the later place also comes after the earlier one
      have hafter : after = past.drop (before.length + 1) := by simp [hpast]
      have hafter' : after' = past.drop (before'.length + 1) := by simp [hpast']
      have hsubset : past.drop (before.length + 1) ⊆ past.drop (before'.length + 1) :=
        List.drop_subset_drop_left past (by omega)
      exact hlast (hafter' ▸ hsubset (hafter ▸ hmem))
  have hused : m ∈ past := by simp [hpast']
  rw [hpast, List.mem_append] at hused
  exact ⟨before, after, hpast, hused.resolve_right hlater, hlater⟩

end Clocked

/-! ## Sweeps -/

theorem get?_shrink {entries : Table NodeId Entry} {low : Nat}
    (h : (shrink entries low).get? n = some e) : entries.get? n = some e := by
  have hmem := (rows_shrink_perm entries low).mem_iff.1 (Table.get?_eq_some_iff.1 h)
  exact Table.get?_eq_some_iff.2 ((byUse_perm entries).mem_iff.1 (List.mem_of_mem_drop hmem))

/-- An entry that is left has a later tick than any entry that is dropped for its age. -/
theorem lastUsed_le_of_shrink {entries : Table NodeId Entry} {low : Nat}
    (hn : (shrink entries low).get? n = some e) (hm : entries.get? m = some e')
    (hdropped : (shrink entries low).get? m = none) : e'.lastUsed ≤ e.lastUsed := by
  have hperm := rows_shrink_perm entries low
  have hsorted := pairwise_byUse entries
  rw [← List.take_append_drop (entries.size - low) (byUse entries), List.pairwise_append]
    at hsorted
  refine hsorted.2.2 (m, e') ?_ (n, e) (hperm.mem_iff.1 (Table.get?_eq_some_iff.1 hn))
  have hmem : (m, e') ∈ byUse entries :=
    (byUse_perm entries).mem_iff.2 (Table.get?_eq_some_iff.1 hm)
  rw [← List.take_append_drop (entries.size - low) (byUse entries), List.mem_append] at hmem
  refine hmem.resolve_right fun hdrop => ?_
  rw [Table.get?_eq_some_iff.2 (hperm.mem_iff.2 hdrop)] at hdropped
  cases hdropped

/-- So it has been used after the last use of the other one. -/
theorem Clocked.usedAfter_of_shrink (h : Clocked past c) {entries : Table NodeId Entry} {low : Nat}
    (hentries : ∀ {n e}, entries.get? n = some e → c.entries.get? n = some e)
    (hn : (shrink entries low).contains n) (hm : entries.contains m)
    (hdropped : ¬ (shrink entries low).contains m) : UsedAfter past n m := by
  have hne : n ≠ m := by
    rintro rfl
    exact hdropped hn
  obtain ⟨e, he⟩ := Option.isSome_iff_exists.1 hn
  obtain ⟨e', he'⟩ := Option.isSome_iff_exists.1 hm
  have hnone : (shrink entries low).get? m = none := by simpa [Table.contains] using hdropped
  exact h.usedAfter (hentries (get?_shrink he)) (hentries he') hne
    (lastUsed_le_of_shrink he he' hnone)

/-- The number of entries dropped and the number of entries left. -/
theorem sweep_fst_add_size (c : Cache) : c.sweep.1 + c.sweep.2.size = c.size := by
  have hle : c.sweep.2.size ≤ c.size := by
    refine Nat.le_trans ?_ (Table.size_filter_le c.isLive c.entries)
    change (shrink _ _).size ≤ _
    rw [size_shrink]
    exact Nat.min_le_left ..
  exact Nat.sub_add_cancel hle

/-- An insertion that sweeps first stores its entry in what the sweep has left. -/
theorem get?_insert_of_full {ty : Ty} {generation : Nat} {files : List FileId}
    (hfull : c.settings.maxEntries ≤ c.size)
    (hadmitted : (c.insert n ty generation files).1 = true) (m : NodeId) :
    (c.insert n ty generation files).2.entries.get? m =
      if m = n then some ⟨⟨ty, otherFiles n.file files⟩, generation, c.tick⟩
      else c.sweep.2.entries.get? m := by
  rw [insert_of_admitted hadmitted, store, Table.get?_insert, tick_makeRoom, makeRoom, if_pos hfull]

theorem settings_performAll (s : CacheSettings) (ops : List Operation) :
    ((ofSettings s).performAll ops).settings = s :=
  ((invariant_within s).performAll (within_ofSettings s) ops).1

/-- After any operations a sweep drops the entries of files that are gone. If more than the low
watermark are left, it keeps as many of them, namely those whose last use is the most recent;
otherwise it keeps them all. Entries are kept as they are, and the number of dropped ones is
returned. An insertion that sweeps the cache stores its entry beside those that the sweep keeps. -/
theorem sweep_keeps_last_used (s : CacheSettings) (ops : List Operation) :
    let c := (ofSettings s).performAll ops
    let uses := (ofSettings s).uses ((ofSettings s).callsAll ops)
    let remaining := c.entries.filter fun n _ => !c.isRetired n.file
    let kept := c.sweep.2.entries
    (∀ n e, kept.get? n = some e → remaining.get? n = some e) ∧
      (remaining.size ≤ s.lowWatermark → kept = remaining) ∧
      (s.lowWatermark < remaining.size → kept.size = s.lowWatermark ∧
        ∀ n m, kept.contains n → remaining.contains m → ¬ kept.contains m →
          UsedAfter uses n m) ∧
      c.sweep.1 + kept.size = c.size ∧
      ∀ n ty generation files, s.maxEntries ≤ c.size →
        (c.insert n ty generation files).1 = true →
        let after := (c.insert n ty generation files).2.entries
        (∃ e, after.get? n = some e ∧ e.toCached = ⟨ty, otherFiles n.file files⟩) ∧
          ∀ m, m ≠ n → after.get? m = kept.get? m := by
  intro c uses remaining kept
  have hmake : c = (ofSettings s).makeAll ((ofSettings s).callsAll ops) :=
    (makeAll_callsAll ops _).symm
  have hsettings : c.settings = s := settings_performAll s ops
  have hclocked : Clocked uses c := hmake ▸ Clocked.makeAll s _
  have hconsistent : c.Consistent := hmake ▸ consistent_makeAll s _
  have hkept : kept = shrink remaining s.lowWatermark := by
    change shrink (c.entries.filter c.isLive) c.settings.lowWatermark = _
    rw [hconsistent.filter_isLive, hsettings]
  have hentry {n : NodeId} {e : Entry} (hn : remaining.get? n = some e) :
      c.entries.get? n = some e := by
    rw [Table.get?_filter, Option.filter_eq_some_iff] at hn
    exact hn.1
  refine ⟨fun n e hn => get?_shrink (hkept ▸ hn), fun hle => hkept.trans (if_pos hle),
    fun hlt => ⟨?_, ?_⟩, c.sweep_fst_add_size, fun n ty generation files hfull hadmitted => ?_⟩
  · rw [hkept, size_shrink]
    exact Nat.min_eq_right (Nat.le_of_lt hlt)
  · rw [hkept]
    exact fun n m => hclocked.usedAfter_of_shrink hentry
  · have hget := get?_insert_of_full (hsettings.symm ▸ hfull) hadmitted
    exact ⟨⟨_, (hget n).trans (if_pos rfl), rfl⟩, fun m hm => (hget m).trans (if_neg hm)⟩

end MoveTyping.Cache
