import MoveTyping.Proofs.Cache.Entries
import MoveTyping.Proofs.Cache.History

/-!
# What an edit drops

The edit of a file drops the entries of its nodes and all entries whose node is registered with the
file. An insertion registers its node with the files that it names. Nothing takes a registration
back when the node is stored again and other files are named: it stays until its file is edited,
everything is cleared, or a sweep finds no live entry of the node. So an edit drops all that was
derived from its file, and on top of it what was once derived from it and is not any more.

## Main definitions

* `Cache.Registers`, `Cache.Unregisters` — the calls that add and take away a registration.
* `Cache.Steady` — insertions of one node agree about a file.
-/

namespace MoveTyping.Cache

variable {c : Cache} {n : NodeId} {e : Entry} {f : FileId} {calls : List Call}

/-! ## Registrations -/

/-- The call registers the node with the file: it stores a type of the node and names the file. -/
def Registers (f : FileId) (n : NodeId) (c : Cache) : Call → Prop
  | .access (.insert m ty generation files) =>
    m = n ∧ f ∈ otherFiles m.file files ∧ (c.insert m ty generation files).1 = true
  | _ => False

/-- The call takes a registration away. An insertion does so if it sweeps the cache first. -/
def Unregisters (f : FileId) (n : NodeId) (c : Cache) : Call → Prop
  | .upkeep (.invalidate file) => file = f
  | .upkeep (.retire file) => file = f
  | .upkeep .clear => True
  | .upkeep .sweep => c.hasLive n = false
  | .access (.insert m ty generation files) =>
    (c.insert m ty generation files).1 = true ∧ c.settings.maxEntries ≤ c.size ∧
      c.hasLive n = false
  | _ => False

theorem Registers.exists_insert {call : Call} (h : Registers f n c call) :
    ∃ ty generation files, call = .access (.insert n ty generation files) ∧
      f ∈ otherFiles n.file files := by
  unfold Registers at h
  split at h
  next ty generation files =>
    obtain ⟨rfl, hf, -⟩ := h
    exact ⟨ty, generation, files, rfl, hf⟩
  · exact h.elim

/-- What one call does to the registrations. -/
theorem mem_dependents_make (c : Cache) (call : Call) :
    (f, n) ∈ (c.make call).dependents ↔
      Registers f n c call ∨ (f, n) ∈ c.dependents ∧ ¬ Unregisters f n c call := by
  cases call with
  | access call =>
    cases call with
    | fetch m => simp [make, access, Registers, Unregisters]
    | insert m ty generation files =>
      by_cases hadmitted : (c.insert m ty generation files).1 = true
      · simp only [make, access, Registers, Unregisters, hadmitted, and_true, true_and]
        rw [insert_of_admitted hadmitted, mem_dependents_store, mem_dependents_makeRoom, or_comm,
          and_comm (a := f ∈ _), eq_comm (a := n)]
      · obtain ⟨counters, hinsert⟩ := insert_of_rejected hadmitted
        simp [make, access, Registers, Unregisters, hadmitted, hinsert]
    | record name => simp [make, access, Registers, Unregisters]
    | indexAt name record generation =>
      obtain ⟨index, hindex⟩ := c.exists_indexRecordAt name record generation
      simp [make, access, Registers, Unregisters, hindex]
  | upkeep call =>
    cases call with
    | invalidate file =>
      simp [make, maintain, Registers, Unregisters, mem_dependents_invalidate, eq_comm]
    | retire file =>
      have hretire : (c.retire file).dependents = (c.invalidate file).dependents := rfl
      simp [make, maintain, Registers, Unregisters, hretire, mem_dependents_invalidate, eq_comm]
    | revive file => simp [make, maintain, Registers, Unregisters, revive]
    | clear => simp [make, maintain, Registers, Unregisters, clear]
    | sweep => simp [make, maintain, Registers, Unregisters, mem_dependents_sweep]
    | index name record => simp [make, maintain, Registers, Unregisters, indexRecord]
    | unindex name => simp [make, maintain, Registers, Unregisters, unindex]

/-- A node is registered with a file if an insertion has registered it and no call since then has
taken that away. -/
theorem mem_dependents_iff_since (s : CacheSettings) (calls : List Call) :
    (f, n) ∈ ((ofSettings s).makeAll calls).dependents ↔
      (ofSettings s).Since (Registers f n) (Unregisters f n) calls :=
  makeAll_iff_since (P := fun c => (f, n) ∈ c.dependents) List.not_mem_nil
    fun _ call => mem_dependents_make _ call

/-! ## Consistency -/

theorem invariant_consistent : Invariant Consistent where
  fetch node h := h.fetch node
  insert node ty generation files h := h.insert node ty generation files
  invalidate f h := h.invalidate f
  retire f h := ⟨(h.invalidate f).valid, (h.invalidate f).registered⟩
  revive _ h := ⟨h.valid, h.registered⟩
  clear _ := .of_entries_eq_empty rfl
  sweep h := h.sweep
  index _ h := ⟨h.valid, h.registered⟩

theorem consistent_makeAll (s : CacheSettings) (calls : List Call) :
    ((ofSettings s).makeAll calls).Consistent :=
  invariant_consistent.makeAll (.of_entries_eq_empty rfl) calls

/-! ## Where entries come from -/

/-- The upkeep may drop an entry, and else leaves it as it is. -/
theorem get?_maintain {call : Upkeep} (h : (c.maintain call).entries.get? n = some e) :
    c.entries.get? n = some e := by
  cases call with
  | invalidate file => exact (get?_invalidate.1 h).1
  | retire file => exact (get?_invalidate.1 h).1
  | clear => cases h
  | sweep => exact get?_sweep h
  | revive file => exact h
  | index name record => exact h
  | unindex name => exact h

/-- The files of an entry after a call are those that it had before, or the call names them. -/
theorem deps_make {call : Call} (h : (c.make call).entries.get? n = some e) :
    (∃ e', c.entries.get? n = some e' ∧ e.deps = e'.deps) ∨
      ∃ ty generation files, call = .access (.insert n ty generation files) ∧
        e.deps = otherFiles n.file files := by
  cases call with
  | access call =>
    cases call with
    | fetch m =>
      rcases get?_fetch h with ⟨-, -, e', he', rfl⟩ | ⟨-, he⟩
      · exact .inl ⟨e', he', rfl⟩
      · exact .inl ⟨e, he, rfl⟩
    | insert m ty generation files =>
      rcases get?_insert h with ⟨rfl, -, rfl⟩ | ⟨-, he⟩
      · exact .inr ⟨ty, generation, files, rfl, rfl⟩
      · exact .inl ⟨e, he, rfl⟩
    | record name => exact .inl ⟨e, h, rfl⟩
    | indexAt name record generation =>
      obtain ⟨index, hindex⟩ := c.exists_indexRecordAt name record generation
      exact .inl ⟨e, congrArg (·.entries.get? n) hindex ▸ h, rfl⟩
  | upkeep call => exact .inl ⟨e, get?_maintain h, rfl⟩

/-- The files of an entry were named by an insertion of its node. -/
theorem exists_insert (s : CacheSettings)
    (h : ((ofSettings s).makeAll calls).entries.get? n = some e) :
    ∃ ty generation files, .access (.insert n ty generation files) ∈ calls ∧
      e.deps = otherFiles n.file files := by
  induction calls using List.reverseRecOn generalizing e with
  | nil => cases h
  | append_singleton calls call ih =>
    rw [makeAll_append] at h
    rcases deps_make h with ⟨e', he', hdeps⟩ | ⟨ty, generation, files, rfl, hdeps⟩
    · obtain ⟨ty, generation, files, hmem, hfiles⟩ := ih he'
      exact ⟨ty, generation, files, List.mem_append_left _ hmem, hdeps.trans hfiles⟩
    · exact ⟨ty, generation, files, by simp, hdeps⟩

/-! ## Steady histories -/

/-- All insertions of a node name the file, or none does. -/
def Steady (f : FileId) (calls : List Call) : Prop :=
  ∀ n ty ty' generation generation' files files',
    .access (.insert n ty generation files) ∈ calls →
    .access (.insert n ty' generation' files') ∈ calls → f ∈ files → f ∈ files'

/-- In a steady history a registered node has an entry that is derived from the file, if it has one
at all. -/
theorem Steady.mem_deps (h : Steady f calls) {s : CacheSettings}
    (hn : ((ofSettings s).makeAll calls).entries.get? n = some e)
    (hsince : (ofSettings s).Since (Registers f n) (Unregisters f n) calls) : f ∈ e.deps := by
  obtain ⟨before, call, after, rfl, hregisters, -⟩ := hsince
  obtain ⟨ty, generation, files, rfl, hf⟩ := hregisters.exists_insert
  obtain ⟨ty', generation', files', hmem, hdeps⟩ := exists_insert s hn
  rw [hdeps]
  rw [mem_otherFiles] at hf ⊢
  exact ⟨h n ty ty' generation generation' files files' (by simp) hmem hf.1, hf.2⟩

/-! ## Edits -/

/-- After any operations the edit of a file drops the entries of its nodes, the entries that are
derived from it, and those whose node is registered with it from an earlier insertion. All others
keep their type, files, generation and last use, and are served. Nothing else is dropped if the
insertions of a node always agree about the file. -/
theorem invalidate_drops (s : CacheSettings) (ops : List Operation) (f : FileId) :
    let c := (ofSettings s).performAll ops
    let history := (ofSettings s).callsAll ops
    (∀ n e, (c.invalidate f).entries.get? n = some e ↔
        c.entries.get? n = some e ∧ n.file ≠ f ∧ f ∉ e.deps ∧
          ¬ (ofSettings s).Since (Registers f n) (Unregisters f n) history) ∧
      (∀ n e, (c.invalidate f).entries.get? n = some e →
        (c.invalidate f).served? n = some e.toCached) ∧
      (Steady f history → ∀ n e, (c.invalidate f).entries.get? n = some e ↔
        c.entries.get? n = some e ∧ n.file ≠ f ∧ f ∉ e.deps) := by
  intro c history
  have hmake : c = (ofSettings s).makeAll history := (makeAll_callsAll ops _).symm
  have hconsistent : c.Consistent := hmake ▸ consistent_makeAll s history
  have hkept (n : NodeId) (e : Entry) : (c.invalidate f).entries.get? n = some e ↔
      c.entries.get? n = some e ∧ n.file ≠ f ∧ f ∉ e.deps ∧
        ¬ (ofSettings s).Since (Registers f n) (Unregisters f n) history := by
    rw [hconsistent.get?_invalidate_iff, ← mem_dependents_iff_since, ← hmake]
  refine ⟨hkept, fun n e hn => ?_, fun hsteady n e => ?_⟩
  · rw [(hconsistent.invalidate f).served?_eq, hn]
    rfl
  · rw [hkept]
    constructor
    · rintro ⟨hold, hfile, hdeps, -⟩
      exact ⟨hold, hfile, hdeps⟩
    · rintro ⟨hold, hfile, hdeps⟩
      exact ⟨hold, hfile, hdeps, fun hsince => hdeps (hsteady.mem_deps (hmake ▸ hold) hsince)⟩

/-- A type is derived from the files 0 and 2. After the edit of file 2 it is derived again, now from
file 2 alone. The edit of file 0 drops it all the same. -/
theorem invalidate_drops_underived :
    let c := (ofSettings {}).performAll
      [.derive ⟨1, 0⟩ 1 (some (.prim .u8)) [0, 2] [], .call (.upkeep (.invalidate 2)),
        .derive ⟨1, 0⟩ 2 (some (.prim .u16)) [2] []]
    c.served? ⟨1, 0⟩ = some ⟨.prim .u16, [2]⟩ ∧ (c.invalidate 0).served? ⟨1, 0⟩ = none := by
  decide +kernel

end MoveTyping.Cache
