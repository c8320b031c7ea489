import MoveTyping.Proofs.Cache.Served

/-!
# The entries of a cache

An entry is stored by an insertion, touched by a look-up that serves it, and otherwise stays as it
is until it is dropped. An edit drops the entries of its file and those that are registered with it,
and a node is registered with all files that its entry was derived from. So no entry is ever stale.

## Main definitions

* `Cache.hasLive` — a sweep finds a live entry of a node.
* `Cache.Consistent` — every entry may be served and is registered with its files.
-/

namespace MoveTyping

namespace Table

variable {κ α : Type} [DecidableEq κ]

theorem get?_eq_some_iff {t : Table κ α} {k : κ} {v : α} :
    t.get? k = some v ↔ (k, v) ∈ t.rows := by
  obtain ⟨rows, hnodup⟩ := t
  unfold get?
  induction rows with
  | nil => simp [rowValue]
  | cons r rows ih =>
    obtain ⟨hr, hnodup⟩ := List.nodup_cons.1 hnodup
    by_cases hk : r.1 = k
    · have hother : (k, v) ∉ rows := fun hmem => hr (hk ▸ List.mem_map_of_mem hmem)
      simp [rowValue, hk, hother, Prod.ext_iff, eq_comm]
    · simp [rowValue, hk, ih hnodup, Prod.ext_iff, Ne.symm hk]

theorem filter_eq_self {t : Table κ α} {p : κ → α → Bool}
    (h : ∀ {k v}, t.get? k = some v → p k v = true) : t.filter p = t := by
  have hrows : (t.filter p).rows = t.rows :=
    List.filter_eq_self.2 fun _ hr => h (get?_eq_some_iff.2 hr)
  cases t
  simpa [filter] using hrows

end Table

namespace Cache

/-! ## Order -/

section Order

variable {α β : Type} {precedes : α → α → Bool}

theorem place_perm (a : α) (placed : List α) : (place precedes a placed).Perm (a :: placed) := by
  induction placed with
  | nil => exact .refl _
  | cons b bs ih =>
    unfold place
    split
    · exact .refl _
    · exact (ih.cons b).trans (.swap a b bs)

theorem arrange_perm (values : List α) : (arrange precedes values).Perm values := by
  have key : ∀ (values placed : List α),
      (values.foldl (fun placed a => place precedes a placed) placed).Perm (values ++ placed) := by
    intro values
    induction values with
    | nil => exact fun placed => .refl _
    | cons a values ih =>
      intro placed
      exact (ih _).trans (((place_perm a placed).append_left values).trans List.perm_middle)
  have hperm := key values []
  rwa [List.append_nil] at hperm

/-- The order of the values is kept when one is put in its place. -/
theorem pairwise_place {key : α → Nat} (hkey : ∀ a b, precedes a b = decide (key a < key b))
    (a : α) {placed : List α} (h : placed.Pairwise fun a b => key a ≤ key b) :
    (place precedes a placed).Pairwise fun a b => key a ≤ key b := by
  induction placed with
  | nil => exact List.pairwise_singleton ..
  | cons b bs ih =>
    obtain ⟨hb, hbs⟩ := List.pairwise_cons.1 h
    unfold place
    split
    next hlt =>
      rw [hkey, decide_eq_true_eq] at hlt
      refine List.pairwise_cons.2 ⟨fun c hc => ?_, h⟩
      rcases List.mem_cons.1 hc with rfl | hc
      · exact Nat.le_of_lt hlt
      · exact Nat.le_trans (Nat.le_of_lt hlt) (hb c hc)
    next hle =>
      rw [hkey, decide_eq_true_eq, Nat.not_lt] at hle
      refine List.pairwise_cons.2 ⟨fun c hc => ?_, ih hbs⟩
      rcases List.mem_cons.1 ((place_perm a bs).mem_iff.1 hc) with rfl | hc
      · exact hle
      · exact hb c hc

theorem pairwise_arrange {key : α → Nat} (hkey : ∀ a b, precedes a b = decide (key a < key b))
    (values : List α) : (arrange precedes values).Pairwise fun a b => key a ≤ key b :=
  List.foldlRecOn values _ .nil fun _ hplaced a _ => pairwise_place hkey a hplaced

/-- A map that keeps the order may be applied before or after. -/
theorem map_arrange {precedes' : β → β → Bool} (f : α → β)
    (h : ∀ a b, precedes' (f a) (f b) = precedes a b) (values : List α) :
    (arrange precedes values).map f = arrange precedes' (values.map f) := by
  have hplace : ∀ (a : α) (placed : List α),
      (place precedes a placed).map f = place precedes' (f a) (placed.map f) := by
    intro a placed
    induction placed with
    | nil => rfl
    | cons b bs ih =>
      simp only [place, List.map_cons, h]
      split <;> simp [ih]
  have hfold : ∀ (values placed : List α),
      (values.foldl (fun placed a => place precedes a placed) placed).map f =
        (values.map f).foldl (fun placed a => place precedes' a placed) (placed.map f) := by
    intro values
    induction values with
    | nil => exact fun placed => rfl
    | cons a values ih =>
      intro placed
      rw [List.foldl_cons, ih, hplace, List.map_cons, List.foldl_cons]
  exact hfold values []

end Order

variable {c c' : Cache} {n m : NodeId} {e : Entry} {f : FileId}

/-! ## What a call does to an entry -/

theorem get?_fetch (h : (c.fetch m).2.entries.get? n = some e) :
    (n = m ∧ (c.served? m).isSome ∧
        ∃ e', c.entries.get? n = some e' ∧ e = { e' with lastUsed := c.tick }) ∨
      ¬ (n = m ∧ (c.served? m).isSome) ∧ c.entries.get? n = some e := by
  unfold served?
  unfold fetch at h ⊢
  cases hm : c.entries.get? m with
  | none => simp_all
  | some e' =>
    simp only [hm] at h ⊢
    split at h
    next hvalid =>
      simp only [Table.get?_insert] at h
      simp only [hvalid, ↓reduceIte, Option.isSome_some, and_true, true_and]
      split at h
      next heq => exact .inl ⟨heq, e', heq ▸ hm, (Option.some.inj h).symm⟩
      next hne => exact .inr ⟨hne, h⟩
    next hstale =>
      simp only [Table.get?_erase] at h
      split at h
      · cases h
      next hne => exact .inr ⟨fun heq => hne heq.1, h⟩

theorem get?_makeRoom (h : c.makeRoom.entries.get? n = some e) : c.entries.get? n = some e := by
  unfold makeRoom at h
  split at h
  · exact get?_sweep h
  · exact h

@[simp] theorem tick_makeRoom (c : Cache) : c.makeRoom.tick = c.tick := by
  unfold makeRoom
  split <;> rfl

/-- An admitted type gets room and is stored. -/
theorem insert_of_admitted {ty : Ty} {generation : Nat} {files : List FileId}
    (h : (c.insert m ty generation files).1 = true) :
    (c.insert m ty generation files).2 =
      c.makeRoom.store m ⟨ty, otherFiles m.file files⟩ generation := by
  unfold insert at h ⊢
  dsimp only at h ⊢
  split at h
  · cases h
  next hadmitted => rw [if_neg hadmitted]

/-- A type that is not admitted changes nothing but a counter. -/
theorem insert_of_rejected {ty : Ty} {generation : Nat} {files : List FileId}
    (h : ¬ (c.insert m ty generation files).1 = true) :
    ∃ counters, (c.insert m ty generation files).2 = { c with counters } := by
  unfold insert at h ⊢
  dsimp only at h ⊢
  split at h
  next hreject => exact ⟨_, by rw [if_pos hreject]⟩
  · exact absurd rfl h

theorem get?_insert {ty : Ty} {generation : Nat} {files : List FileId}
    (h : (c.insert m ty generation files).2.entries.get? n = some e) :
    (n = m ∧ (c.insert m ty generation files).1 = true ∧
        e = ⟨⟨ty, otherFiles m.file files⟩, generation, c.tick⟩) ∨
      ¬ (n = m ∧ (c.insert m ty generation files).1 = true) ∧ c.entries.get? n = some e := by
  by_cases hadmitted : (c.insert m ty generation files).1 = true
  · rw [insert_of_admitted hadmitted, store, Table.get?_insert, tick_makeRoom] at h
    split at h
    next heq => exact .inl ⟨heq, hadmitted, (Option.some.inj h).symm⟩
    next hne => exact .inr ⟨fun heq => hne heq.1, get?_makeRoom h⟩
  · obtain ⟨counters, hinsert⟩ := insert_of_rejected hadmitted
    rw [hinsert] at h
    exact .inr ⟨fun heq => hadmitted heq.2, h⟩

theorem get?_invalidate : (c.invalidate f).entries.get? n = some e ↔
    c.entries.get? n = some e ∧ n.file ≠ f ∧ (f, n) ∉ c.dependents := by
  simp [invalidate, Option.filter_eq_some_iff]

/-! ## What a call does to the registrations -/

/-- Whether a sweep finds a live entry of the node. -/
def hasLive (c : Cache) (n : NodeId) : Bool := (c.entries.filter c.isLive).contains n

/-- What a sweep leaves was live. -/
theorem hasLive_of_sweep (hn : c.sweep.2.entries.get? n = some e) :
    c.hasLive n = true := by
  simp only [Cache.sweep, shrink] at hn
  unfold hasLive Table.contains
  split at hn
  · rw [hn]
    rfl
  · simp only [Table.get?_filter, Option.filter_eq_some_iff] at hn
    simp [hn]

theorem mem_dependents_sweep {d : FileId × NodeId} :
    d ∈ c.sweep.2.dependents ↔ d ∈ c.dependents ∧ ¬ c.hasLive d.2 = false := by
  rw [Bool.not_eq_false]
  exact List.mem_filter

theorem mem_dependents_makeRoom {d : FileId × NodeId} :
    d ∈ c.makeRoom.dependents ↔
      d ∈ c.dependents ∧ ¬ (c.settings.maxEntries ≤ c.size ∧ c.hasLive d.2 = false) := by
  unfold makeRoom
  split
  next hfull => rw [mem_dependents_sweep, and_iff_right hfull]
  next hroom => exact (and_iff_left fun h => hroom h.1).symm

theorem mem_dependents_invalidate {d : FileId × NodeId} :
    d ∈ (c.invalidate f).dependents ↔ d ∈ c.dependents ∧ d.1 ≠ f := by
  simp [invalidate]

/-! ## Consistency -/

/-- Every entry may be served, and its node is registered with the files it was derived from. -/
structure Consistent (c : Cache) : Prop where
  valid : ∀ {n e}, c.entries.get? n = some e → c.isValid n.file e.generation e.deps = true
  registered : ∀ {n e}, c.entries.get? n = some e → ∀ f ∈ e.deps, (f, n) ∈ c.dependents

namespace Consistent

theorem of_entries_eq_empty (h : c.entries = ∅) : c.Consistent :=
  ⟨fun hn => by simp [h] at hn, fun hn => by simp [h] at hn⟩

/-- A consistent cache serves what it stores. -/
theorem served?_eq (h : c.Consistent) (n : NodeId) :
    c.served? n = (c.entries.get? n).map Entry.toCached := by
  rw [Cache.served?_eq]
  cases hn : c.entries.get? n with
  | none => rfl
  | some e => simp [Option.filter, h.valid hn]

/-- Nothing is stale in a consistent cache, so a sweep looks only for files that are gone. -/
theorem filter_isLive (h : c.Consistent) :
    c.entries.filter c.isLive = c.entries.filter fun n _ => !c.isRetired n.file := by
  have hrows : c.entries.rows.filter (fun r => c.isLive r.1 r.2) =
      c.entries.rows.filter fun r => !c.isRetired r.1.file := by
    refine List.filter_congr fun r hr => ?_
    have hrow : c.entries.get? r.1 = some r.2 := Table.get?_eq_some_iff.2 hr
    simp [isLive, h.valid hrow]
  simp only [Table.filter, hrows]

/-- Between edits a cache stays consistent if its entries are old ones, apart from their use, that
have kept their registrations. -/
theorem of_unedited (h : c.Consistent) (hu : Unedited c c')
    (hentries : ∀ {n e}, c'.entries.get? n = some e →
      ∃ e', c.entries.get? n = some e' ∧ e'.generation = e.generation ∧ e'.deps = e.deps)
    (hdependents : ∀ {n e}, c'.entries.get? n = some e →
      ∀ f, (f, n) ∈ c.dependents → (f, n) ∈ c'.dependents) : c'.Consistent where
  valid hn := by
    obtain ⟨e', he', hgeneration, hdeps⟩ := hentries hn
    rw [hu.isValid, ← hgeneration, ← hdeps]
    exact h.valid he'
  registered hn f hf := by
    obtain ⟨e', he', -, hdeps⟩ := hentries hn
    exact hdependents hn f (h.registered he' f (hdeps ▸ hf))

theorem fetch (h : c.Consistent) (m : NodeId) : (c.fetch m).2.Consistent := by
  refine h.of_unedited (.fetch c m) (fun hn => ?_) fun _ f hf => ?_
  · rcases get?_fetch hn with ⟨-, -, e', he', rfl⟩ | ⟨-, he⟩
    · exact ⟨e', he', rfl, rfl⟩
    · exact ⟨_, he, rfl, rfl⟩
  · rwa [dependents_fetch]

theorem sweep (h : c.Consistent) : c.sweep.2.Consistent := by
  refine h.of_unedited (.sweep c) (fun hn => ⟨_, get?_sweep hn, rfl, rfl⟩) fun hn f hf => ?_
  exact mem_dependents_sweep.2 ⟨hf, by simp [hasLive_of_sweep hn]⟩

theorem makeRoom (h : c.Consistent) : c.makeRoom.Consistent := by
  unfold Cache.makeRoom
  split
  · exact h.sweep
  · exact h

/-- A type that may be served can be stored. -/
theorem store (h : c.Consistent) {x : Cached} {generation : Nat}
    (hvalid : c.isValid m.file generation x.deps = true) :
    (c.store m x generation).Consistent where
  valid {n e} hn := by
    have hsame : (c.store m x generation).isValid n.file e.generation e.deps =
        c.isValid n.file e.generation e.deps := rfl
    rw [hsame]
    simp only [Cache.store, Table.get?_insert] at hn
    split at hn
    next heq =>
      obtain rfl := Option.some.inj hn
      exact heq ▸ hvalid
    · exact h.valid hn
  registered {n e} hn f hf := by
    refine mem_dependents_store.2 ?_
    simp only [Cache.store, Table.get?_insert] at hn
    split at hn
    next heq =>
      obtain rfl := Option.some.inj hn
      exact .inr ⟨hf, heq⟩
    · exact .inl (h.registered hn f hf)

theorem insert (h : c.Consistent) (m : NodeId) (ty : Ty) (generation : Nat)
    (files : List FileId) : (c.insert m ty generation files).2.Consistent := by
  by_cases hadmitted : (c.insert m ty generation files).1 = true
  · rw [insert_of_admitted hadmitted]
    rw [insert_fst, Bool.and_eq_true_iff] at hadmitted
    exact h.makeRoom.store ((Unedited.makeRoom c).isValid .. ▸ hadmitted.2)
  · obtain ⟨counters, hinsert⟩ := insert_of_rejected hadmitted
    rw [hinsert]
    exact ⟨h.valid, h.registered⟩

/-- An entry that outlives an edit has nothing to do with the edited file. -/
theorem notMem_deps (h : c.Consistent) (hn : (c.invalidate f).entries.get? n = some e) :
    f ∉ e.deps := by
  obtain ⟨hold, -, hdependents⟩ := get?_invalidate.1 hn
  exact fun hf => hdependents (h.registered hold f hf)

theorem get?_invalidate_iff (h : c.Consistent) :
    (c.invalidate f).entries.get? n = some e ↔
      c.entries.get? n = some e ∧ n.file ≠ f ∧ f ∉ e.deps ∧ (f, n) ∉ c.dependents := by
  constructor
  · intro hn
    obtain ⟨hold, hfile, hnot⟩ := get?_invalidate.1 hn
    exact ⟨hold, hfile, h.notMem_deps hn, hnot⟩
  · rintro ⟨hold, hfile, -, hnot⟩
    exact get?_invalidate.2 ⟨hold, hfile, hnot⟩

theorem invalidate (h : c.Consistent) (f : FileId) : (c.invalidate f).Consistent where
  valid hn := by
    obtain ⟨hold, hfile, -⟩ := get?_invalidate.1 hn
    have hvalid := h.valid hold
    simp only [isValid, Bool.and_eq_true, List.all_eq_true] at hvalid ⊢
    refine ⟨hvalid.1, fun g hg => ?_⟩
    have hne : g ≠ f := by
      rintro rfl
      exact (List.mem_cons.1 hg).elim (fun heq => hfile heq.symm) (h.notMem_deps hn)
    rw [isCurrent_invalidate, if_neg hne]
    exact hvalid.2 g hg
  registered hn g hg := by
    refine mem_dependents_invalidate.2 ⟨h.registered (get?_invalidate.1 hn).1 g hg, ?_⟩
    rintro rfl
    exact h.notMem_deps hn hg

end Consistent

end Cache

end MoveTyping
