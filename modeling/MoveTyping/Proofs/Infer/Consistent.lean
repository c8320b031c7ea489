import MoveTyping.Proofs.Infer.Run

/-!
# Caches that follow a typing

What the answers of engines mean. As long as no question is cut off, an engine answers by the rules
alone: over a cache whose types follow the rules so do its answers, the files that it notes are
those that the rules read, and the types that it stores follow the rules again. That is so whatever
engines work on the cache at the same time, since all of them keep to it.

## Main definitions

* `Inference.Consistent` — a cache that follows a typing.
* `Inference.following` — the protocol of engines over such a cache.

## Main results

* `Inference.yields_ruleTask`, `Inference.yields_typeTask` — engines keep to it, and answer by the
  rules.
* `Inference.performWith_yields`, `Inference.inferWithin_yields` — the same of an engine by itself.
-/

namespace MoveTyping

variable {α : Type} {c : Cache} {n : NodeId} {x : Cached} {q : QName}

namespace Inference

variable {i : Inference} {e : Engine} {depth k : Nat}

/-- A cache for the current trees, whose types and dependents follow a typing and whose records are
those of the typing. -/
structure Consistent (i : Inference) {record : QName → Option Record} (T : i.env.Typing record)
    (c : Cache) : Prop where
  timed : c.WellTimed
  generation : i.generation = c.generation
  known : ∀ {n x}, c.served? n = some x → x.ty.hasUnknown = false
  deps : ∀ {n x}, c.served? n = some x → ∃ files, x.deps = Cache.otherFiles n.file files
  served : ∀ {n x}, c.served? n = some x → T.holds n (some x.ty) (insert n.file x.deps.toFinset)
  dependents : ∀ {f n}, (f, n) ∈ c.dependents → T.depends f n
  records : ∀ q, (c.record? q).or (i.env.found? q) = record q

variable {record : QName → Option Record} {T : i.env.Typing record}

namespace Consistent

/-- A cache without types follows any typing that allows its dependents and has its records. -/
theorem of_unserved (htimed : c.WellTimed) (hgeneration : i.generation = c.generation)
    (hserved : ∀ n, c.served? n = none)
    (hdependents : ∀ {f n}, (f, n) ∈ c.dependents → T.depends f n)
    (hrecords : ∀ q, (c.record? q).or (i.env.found? q) = record q) : i.Consistent T c where
  timed := htimed
  generation := hgeneration
  known hx := by simp [hserved] at hx
  deps hx := by simp [hserved] at hx
  served hx := by simp [hserved] at hx
  dependents := hdependents
  records := hrecords

theorem fetch (hc : i.Consistent T c) (n : NodeId) :
    i.Consistent T (c.fetch n).2 where
  timed := hc.timed.fetch n
  generation := hc.generation.trans (Cache.Unedited.fetch c n).generation.symm
  known h := hc.known (by simpa using h)
  deps h := hc.deps (by simpa using h)
  served h := hc.served (by simpa using h)
  dependents h := hc.dependents (by simpa [Cache.dependents_fetch] using h)
  records q := ((Cache.Frame.fetch c n).records q).trans (hc.records q)

/-- Indexing a record of the typing. -/
theorem indexRecordAt (hc : i.Consistent T c) {r : Record} (hr : i.env.ownRecord? q = some r)
    (hq : record q = some r) (generation : Nat) :
    i.Consistent T (c.indexRecordAt q r generation).2 := by
  have hfound : (c.record? q).or (i.env.found? q) = some r := (hc.records q).trans hq
  have hframe : c.Frame i.env.found? (c.indexRecordAt q r generation).2 :=
    .indexRecordAt hfound (Env.found?_of_ownRecord? hr) generation
  have hsame : (c.indexRecordAt q r generation).2.entries = c.entries ∧
      (c.indexRecordAt q r generation).2.dependents = c.dependents := by
    obtain ⟨index, hindex⟩ := c.exists_indexRecordAt q r generation
    exact hindex ▸ ⟨rfl, rfl⟩
  have hserved : ∀ n, (c.indexRecordAt q r generation).2.served? n = c.served? n :=
    Cache.served?_congr hsame.1 hframe.clearedAt hframe.invalidatedAt
  refine ⟨hc.timed.of_unedited hframe.toUnedited fun he => hc.timed.entry (hsame.1 ▸ he),
    hc.generation.trans hframe.generation.symm, ?_, ?_, ?_, ?_,
    fun q' => (hframe.records q').trans (hc.records q')⟩
  · exact fun h => hc.known ((hserved _).symm.trans h)
  · exact fun h => hc.deps ((hserved _).symm.trans h)
  · exact fun h => hc.served ((hserved _).symm.trans h)
  · exact fun h => hc.dependents (hsame.2 ▸ h)

theorem lookup (hc : i.Consistent T c) (q : QName) : i.Consistent T (i.lookup q c).2 := by
  have hrecord := hc.records q
  unfold Inference.lookup
  cases hq : c.record? q with
  | some r => exact hc
  | none =>
    cases hr : i.env.ownRecord? q with
    | none => exact hc
    | some r =>
      rw [hq, Option.none_or, Env.found?_of_ownRecord? hr] at hrecord
      exact hc.indexRecordAt hr hrecord.symm i.generation

/-- A record that is asked for is that of the typing. -/
theorem ask_fst (hc : i.Consistent T e.cache) (q : QName) : (i.ask q e).1 = record q :=
  (i.lookup_fst q e.cache).trans (hc.records q)

/-- Keeping a result that follows the relation. -/
theorem keep (hc : i.Consistent T c) {ty : Option Ty} {files : List FileId}
    (hT : T.holds n ty (insert n.file files.toFinset)) :
    i.Consistent T (c.keep n ty i.generation files) := by
  cases ty with
  | none => exact hc
  | some ty =>
    have hframe : c.Frame i.env.found? (c.insert n ty i.generation files).2 := .insert ..
    refine ⟨hc.timed.insert n ty files (Nat.le_of_eq hc.generation),
      hc.generation.trans hframe.generation.symm, ?_, ?_, ?_, ?_,
      fun q => (hframe.records q).trans (hc.records q)⟩
    · intro m x h
      obtain ⟨-, rfl, hknown, -⟩ | h := Cache.served?_of_insert h
      · exact hknown
      · exact hc.known h
    · intro m x h
      obtain ⟨rfl, rfl, -, -⟩ | h := Cache.served?_of_insert h
      · exact ⟨files, rfl⟩
      · exact hc.deps h
    · intro m x h
      obtain ⟨rfl, rfl, -, -⟩ | h := Cache.served?_of_insert h
      · have hfiles : insert m.file (Cache.otherFiles m.file files).toFinset =
            insert m.file files.toFinset := by
          ext f
          simp only [Finset.mem_insert, List.mem_toFinset, Cache.mem_otherFiles]
          tauto
        rwa [hfiles]
      · exact hc.served h
    · intro f m h
      obtain h | ⟨hf, rfl⟩ := Cache.mem_dependents_insert h
      · exact hc.dependents h
      · exact T.depends_of_holds hT (Finset.mem_insert_of_mem (List.mem_toFinset.2 hf))

end Consistent

/-! ## The protocol -/

/-- The cache follows the typing, until a question more than `k` is cut off. -/
def following (i : Inference) {record : QName → Option Record} (T : i.env.Typing record) (k : Nat) :
    Protocol where
  inv s := s.cuts = k ∧ i.Consistent T s.cache
  le _ _ := True
  lost s := k < s.cuts
  refl _ := trivial
  trans _ _ := trivial
  not_lost h hlost := Nat.lt_irrefl k (h.1 ▸ hlost)
  lost_act a h := Nat.lt_of_lt_of_le h (Shared.cuts_le_act _ a)

theorem following_count {added : EngineCounters} (hadded : added.cycles + added.depthCutoffs = 0)
    (s : Shared) (hs : (i.following T k).inv s) : (i.following T k).Allows s (s.count added) := by
  refine ⟨trivial, ?_, hs.2⟩
  rw [s.cuts_count, hadded]
  exact hs.1

/-- Where the cache follows the typing, a look-up gives the record of the typing. -/
theorem recordTask_yields {P : Protocol} (hP : P.Stricter (i.following T k))
    (index : ∀ s q r, P.inv s → i.Consistent T (s.indexed q r i.generation).cache →
      P.Allows s (s.indexed q r i.generation)) (q : QName) (s : Shared) :
    (i.recordTask q).Safe P (fun r _ => r = record q) s := by
  refine safe_recordTask (fun s' hs' => (hP.inv hs'.inv).2.records q)
    fun s' s'' r hs' hnone hr hs'' => index s'' q r hs''.inv ?_
  -- the name was not in the index when it was looked up, so its record is found elsewhere
  have hfound := (hP.inv hs'.inv).2.records q
  rw [hnone, Option.none_or, Env.found?_of_ownRecord? hr] at hfound
  exact (hP.inv hs''.inv).2.indexRecordAt hr hfound.symm i.generation

theorem yields_ruleTask {infer : NodeId → Progress → Task (Option Ty × Progress)}
    (hinfer : ∀ n p s, (infer n p).Safe (i.following T k)
      (fun r _ => ∃ F, T.holds n r.1 F ∧ r.2.files.toFinset = p.files.toFinset ∪ F) s)
    (rule : Rule α) (p : Progress) (s : Shared) :
    (i.ruleTask infer rule p).Safe (i.following T k)
      (fun r _ => ∃ F, rule.Yields T.holds record r.1 F ∧
        r.2.files.toFinset = p.files.toFinset ∪ F) s := by
  induction rule generalizing p s with
  | done a => exact fun _ _ => ⟨∅, .done a, by simp⟩
  | ask node next ih =>
    rw [ruleTask_ask]
    refine (hinfer node p s).bind fun r s' hs' hr => ?_
    obtain ⟨F, hF, hfiles⟩ := hr.now hs'.inv
    refine (ih r.1 r.2 s').imp fun r' s'' _ hr' => ?_
    obtain ⟨G, hG, hfiles'⟩ := hr'
    exact ⟨F ∪ G, .ask hF hG, by rw [hfiles', hfiles, Finset.union_assoc]⟩
  | askRecord name next ih =>
    rw [ruleTask_askRecord]
    have hrecord : (i.recordTask name).Safe (i.following T k) (fun r _ => r = record name) s :=
      recordTask_yields ⟨fun h => h, fun h => h⟩
        (fun s q r hs hc => ⟨trivial, hs.1, hc⟩) name s
    refine hrecord.bind fun r s' hs' hr => ?_
    obtain rfl := hr.now hs'.inv
    refine (ih _ p s').imp fun r' s'' _ hr' => ?_
    obtain ⟨G, hG, hfiles⟩ := hr'
    exact ⟨G, .askRecord hG, hfiles⟩
  | read file next ih =>
    refine (ih (p.note file) s).imp fun r s' _ hr => ?_
    obtain ⟨G, hG, hfiles⟩ := hr
    refine ⟨insert file G, .read hG, ?_⟩
    rw [hfiles, Progress.toFinset_files_note, Finset.insert_union, Finset.union_insert]

/-- Keeping what the rule of a node yields. -/
theorem Consistent.keep_rule (hc : i.Consistent T c) (h : i.env.program.contains n = true)
    {p : Progress} {r : Option Ty × Progress} {F : Finset FileId}
    (hF : (i.env.rule n).Yields T.holds record r.1 F)
    (hfiles : r.2.files.toFinset = (p.enter n).files.toFinset ∪ F) :
    i.Consistent T (c.keep n r.1 i.generation r.2.files) ∧
      T.holds n r.1 (insert n.file r.2.files.toFinset) := by
  have hfiles : r.2.files.toFinset = F := hfiles.trans (Finset.empty_union F)
  have hn := hfiles ▸ T.rule h hF
  exact ⟨hc.keep hn, hn⟩

/-- The answer to a question that is not cut off follows the rules, and the files that it notes are
those that the rules read. -/
theorem yields_typeTask (depth : Nat) (n : NodeId) (p : Progress) (s : Shared) :
    (i.typeTask depth n p).Safe (i.following T k)
      (fun r _ => ∃ F, T.holds n r.1 F ∧ r.2.files.toFinset = p.files.toFinset ∪ F) s := by
  have hcut : ∀ {added : EngineCounters}, added.cycles + added.depthCutoffs = 1 →
      ∀ s', (i.following T k).inv s' → (i.following T k).lost (s'.count added) := by
    intro added hadded s' hs'
    change k < (s'.count added).cuts
    rw [s'.cuts_count, hadded, hs'.1]
    exact Nat.lt_succ_self k
  induction depth, n, p using i.typeTask_induction generalizing s with
  | outside depth n p h =>
    rw [typeTask_outside h]
    exact safe_count (following_count rfl) fun _ _ => ⟨∅, T.outside h, by simp⟩
  | cycle depth n p h ha =>
    rw [typeTask_cycle h ha]
    exact safe_count (following_count rfl) (safe_cutOff (hcut rfl))
  | tooDeep n p h ha =>
    rw [typeTask_zero h ha]
    exact safe_count (following_count rfl) (safe_cutOff (hcut rfl))
  | derive depth n p h ha ih =>
    rw [typeTask_succ h ha]
    refine safe_count (following_count rfl) (safe_deriveWith (following_count rfl)
      (fun s' hs' => ⟨trivial, hs'.1, hs'.2.fetch n⟩) (fun s' x hs' hx _ _ => ?_)
      (fun s' _ _ => yields_ruleTask ih (i.env.rule n) (p.enter n) _) fun r s' hs' hr => ?_)
    · refine ⟨insert n.file x.deps.toFinset, hs'.inv.2.served hx, ?_⟩
      simp [Finset.insert_union, Finset.union_insert]
    · obtain ⟨F, hF, hfiles⟩ := hr
      obtain ⟨hc, hn⟩ := hs'.inv.2.keep_rule h hF hfiles
      refine .inr ⟨⟨trivial, hs'.inv.1, hc⟩, fun _ _ => ⟨_, hn, ?_⟩⟩
      simp [Finset.insert_union, Finset.union_insert]

/-! ## Engines by themselves -/

/-- What an engine by itself gives, if what it runs is safe. -/
theorem run_yields {t : Progress → Task (α × Progress)} {Q : α × Progress → Prop}
    (h : (t e.toProgress).Safe (i.following T e.cuts) (fun r _ => Q r) e.toShared)
    (hc : i.Consistent T e.cache) (hcuts : (e.run t).2.cuts = e.cuts) :
    i.Consistent T (e.run t).2.cache ∧ Q ((e.run t).1, (e.run t).2.toProgress) := by
  obtain hlost | ⟨hrun, hdone⟩ := h.run ⟨rfl, hc⟩
  · exact absurd hcuts (Nat.ne_of_gt hlost)
  · exact ⟨hrun.inv.2, hdone.now hrun.inv⟩

/-- What an uncut run of a rule gives. -/
theorem performWith_yields (depth : Nat) (rule : Rule α) (e : Engine)
    (hc : i.Consistent T e.cache)
    (hcuts : (i.performWith (i.inferWithin depth) rule e).2.cuts = e.cuts) :
    i.Consistent T (i.performWith (i.inferWithin depth) rule e).2.cache ∧
      ∃ F, rule.Yields T.holds record (i.performWith (i.inferWithin depth) rule e).1 F ∧
        (i.performWith (i.inferWithin depth) rule e).2.files.toFinset =
          e.files.toFinset ∪ F := by
  rw [← run_ruleTask] at hcuts ⊢
  exact run_yields (yields_ruleTask (yields_typeTask depth) rule e.toProgress e.toShared) hc hcuts

/-- The answer to a question that is not cut off follows the rules, and the files that it notes are
those that the rules read. -/
theorem inferWithin_yields (depth : Nat) (n : NodeId) (e : Engine) (hc : i.Consistent T e.cache)
    (hcuts : (i.inferWithin depth n e).2.cuts = e.cuts) :
    i.Consistent T (i.inferWithin depth n e).2.cache ∧
      ∃ F, T.holds n (i.inferWithin depth n e).1 F ∧
        (i.inferWithin depth n e).2.files.toFinset = e.files.toFinset ∪ F :=
  run_yields (yields_typeTask depth n e.toProgress e.toShared) hc hcuts

end Inference

end MoveTyping
