import MoveTyping.Proofs.Infer.Derivation
import MoveTyping.Proofs.Infer.Safe

/-!
# Runs of the engine

What an engine does to the state that it shares with others, and what it comes to by itself: it
runs a rule one question after the other, and a question ends in one of four ways.

## Main definitions

* `Cache.Frame`, `Shared.Frame`, `Engine.Frame` — what every run leaves as it was.
* `Engine.cuts` — how often a question was cut off.
* `Inference.performWith`, `Inference.inferWithin` — rules and questions of an engine by itself.

## Main results

* `Inference.framed_ruleTask` — no engine leaves the frame, whatever others do meanwhile.
* `Inference.inferWithin_induction`, `Inference.uncut_induction` — induction over questions, and
  over those that are not cut off.
-/

namespace MoveTyping

variable {α : Type} {c c' c'' : Cache} {n m : NodeId} {x : Cached} {q : QName}

/-! ## The cache under a run -/

namespace Cache

/-- What look-ups, insertions and indexing leave as it was: the marks of edits, the records in the
index, and the record of a name where names that are not indexed are looked for elsewhere. -/
structure Frame (found : QName → Option Record) (c c' : Cache) : Prop extends Unedited c c' where
  sweeps_le : c.counters.sweeps ≤ c'.counters.sweeps
  indexed : ∀ {q r}, c.record? q = some r → c'.record? q = some r
  records : ∀ q, (c'.record? q).or (found q) = (c.record? q).or (found q)

variable {found : QName → Option Record}

namespace Frame

theorem refl (c : Cache) : Frame found c c := ⟨.refl c, Nat.le_refl _, fun h => h, fun _ => rfl⟩

theorem trans (h : Frame found c c') (h' : Frame found c' c'') : Frame found c c'' :=
  ⟨h.toUnedited.trans h'.toUnedited, h.sweeps_le.trans h'.sweeps_le,
    fun hq => h'.indexed (h.indexed hq), fun q => (h'.records q).trans (h.records q)⟩

/-- Where nothing is swept in all, nothing is swept in the parts. -/
theorem unswept_split (h : Frame found c c') (h' : Frame found c' c'')
    (hsweeps : c''.counters.sweeps = c.counters.sweeps) :
    c'.counters.sweeps = c.counters.sweeps ∧ c''.counters.sweeps = c'.counters.sweeps := by
  have := h.sweeps_le
  have := h'.sweeps_le
  omega

theorem of_index_eq (hu : Unedited c c') (hs : c.counters.sweeps ≤ c'.counters.sweeps)
    (hi : c'.index = c.index) : Frame found c c' :=
  ⟨hu, hs, by simp [record?, hi], by simp [record?, hi]⟩

/-- What is looked for in more places is found there as well. -/
theorem mono {found' : QName → Option Record} (h : Frame found c c')
    (hfound : ∀ {q r}, found q = some r → found' q = some r) : Frame found' c c' := by
  refine ⟨h.toUnedited, h.sweeps_le, h.indexed, fun q => ?_⟩
  cases hq : c.record? q with
  | some r => rw [h.indexed hq]
  | none =>
    have hrecords := h.records q
    rw [hq, Option.none_or] at hrecords
    cases hq' : c'.record? q with
    | none => rfl
    | some r =>
      rw [hq', Option.some_or] at hrecords
      rw [hfound hrecords.symm]
      rfl

theorem fetch (c : Cache) (n : NodeId) : Frame found c (c.fetch n).2 := by
  refine of_index_eq (.fetch c n) ?_ ?_ <;> unfold Cache.fetch
  · split
    · split <;> exact Nat.le_refl _
    · exact Nat.le_refl _
  · split
    · split <;> rfl
    · rfl

theorem makeRoom (c : Cache) : Frame found c c.makeRoom := by
  refine of_index_eq (.makeRoom c) ?_ ?_ <;> unfold Cache.makeRoom <;> split
  · exact Nat.le_succ _
  · exact Nat.le_refl _
  · rfl
  · rfl

theorem insert (c : Cache) (n : NodeId) (ty : Ty) (generation : Nat) (files : List FileId) :
    Frame found c (c.insert n ty generation files).2 := by
  simp only [Cache.insert]
  split
  · exact of_index_eq ⟨rfl, rfl, rfl, rfl⟩ (Nat.le_refl _) rfl
  · exact (makeRoom c).trans (of_index_eq ⟨rfl, rfl, rfl, rfl⟩ (Nat.le_refl _) rfl)

theorem keep (c : Cache) (n : NodeId) (ty : Option Ty) (generation : Nat) (files : List FileId) :
    Frame found c (c.keep n ty generation files) := by
  cases ty with
  | some ty => exact insert c n ty generation files
  | none => exact refl c

/-- Indexing a record that was to be found already. -/
theorem indexRecordAt {r : Record} (hq : (c.record? q).or (found q) = some r)
    (hr : found q = some r) (generation : Nat) :
    Frame found c (c.indexRecordAt q r generation).2 := by
  unfold Cache.indexRecordAt
  split
  · refine ⟨⟨rfl, rfl, rfl, rfl⟩, Nat.le_refl _, fun {q' r'} h => ?_, fun q' => ?_⟩
    · by_cases hne : q' = q
      · subst hne
        rw [h] at hq
        simpa [record?, Cache.indexRecord] using hq.symm
      · simpa [record?, Cache.indexRecord, Table.get?_insert, hne] using h
    · by_cases hne : q' = q
      · subst hne
        rw [hq]
        simp [record?, Cache.indexRecord]
      · simp [record?, Cache.indexRecord, Table.get?_insert, hne]
  · exact refl c

end Frame

/-- An insertion adds dependents of its own node only. -/
theorem mem_dependents_insert {ty : Ty} {generation : Nat} {files : List FileId}
    {d : FileId × NodeId} (h : d ∈ (c.insert n ty generation files).2.dependents) :
    d ∈ c.dependents ∨ d.1 ∈ files ∧ d.2 = n := by
  simp only [insert] at h
  split at h
  · exact .inl h
  · rcases mem_dependents_store.1 h with h | ⟨hf, hn⟩
    · unfold makeRoom at h
      split at h
      · exact .inl (List.mem_filter.1 h).1
      · exact .inl h
    · exact .inr ⟨(mem_otherFiles.1 hf).1, hn⟩

end Cache

/-! ## Actions of engines -/

/-- What every action of an engine leaves as it was: the questions cut off before, and the frame of
the cache. -/
structure Shared.Frame (found : QName → Option Record) (s s' : Shared) : Prop where
  cycles_le : s.counters.cycles ≤ s'.counters.cycles
  depthCutoffs_le : s.counters.depthCutoffs ≤ s'.counters.depthCutoffs
  cache : s.cache.Frame found s'.cache

namespace Shared.Frame

variable {found : QName → Option Record} {s s' s'' : Shared}

theorem refl (s : Shared) : Frame found s s := ⟨Nat.le_refl _, Nat.le_refl _, .refl _⟩

theorem trans (h : Frame found s s') (h' : Frame found s' s'') : Frame found s s'' :=
  ⟨h.cycles_le.trans h'.cycles_le, h.depthCutoffs_le.trans h'.depthCutoffs_le,
    h.cache.trans h'.cache⟩

theorem count (s : Shared) (added : EngineCounters) : Frame found s (s.count added) :=
  ⟨Nat.le_add_right .., Nat.le_add_right .., .refl _⟩

theorem fetched (s : Shared) (n : NodeId) : Frame found s (s.fetched n) :=
  ⟨Nat.le_refl _, Nat.le_refl _, .fetch s.cache n⟩

theorem kept (s : Shared) (n : NodeId) (ty : Option Ty) (generation : Nat) (files : List FileId) :
    Frame found s (s.kept n ty generation files) :=
  ⟨Nat.le_refl _, Nat.le_refl _, .keep ..⟩

end Shared.Frame

/-- The protocol of all engines, which only says that nobody leaves the frame. -/
def framing (found : QName → Option Record) : Protocol where
  inv _ := True
  le := Shared.Frame found
  lost _ := False
  refl := .refl
  trans := .trans
  not_lost _ h := h
  lost_act _ h := h

namespace Inference

variable {i : Inference} {s : Shared} {p : Progress}

theorem framed_ruleTask {infer : NodeId → Progress → Task (Option Ty × Progress)}
    (hinfer : ∀ n p s, (infer n p).Safe (framing i.env.ownRecord?) (fun _ _ => True) s)
    (rule : Rule α) (p : Progress) (s : Shared) :
    (i.ruleTask infer rule p).Safe (framing i.env.ownRecord?) (fun _ _ => True) s := by
  induction rule generalizing p s with
  | done a => exact fun _ _ => trivial
  | ask node next ih =>
    rw [ruleTask_ask]
    exact (hinfer node p s).bind fun r s' _ _ => ih r.1 r.2 s'
  | askRecord name next ih =>
    rw [ruleTask_askRecord]
    refine (safe_recordTask (Q := fun _ => True) (fun _ _ => trivial) ?_).bind
      fun r s' _ _ => ih r p s'
    -- what was missing when it was looked up has been indexed by others as it would be now
    intro s' s'' r _ hnone hr hs''
    have hfound := hs''.le.cache.records name
    rw [hnone, Option.none_or] at hfound
    exact ⟨⟨Nat.le_refl _, Nat.le_refl _, .indexRecordAt (hfound.trans hr) hr i.generation⟩,
      trivial⟩
  | read file next ih => exact ih (p.note file) s

/-- No question leaves the frame, whatever others do meanwhile. -/
theorem framed_typeTask (i : Inference) (depth : Nat) (n : NodeId) (p : Progress) (s : Shared) :
    (i.typeTask depth n p).Safe (framing i.env.ownRecord?) (fun _ _ => True) s := by
  have hcount : ∀ added s', (framing i.env.ownRecord?).inv s' →
      (framing i.env.ownRecord?).Allows s' (s'.count added) :=
    fun added s' _ => ⟨.count s' added, trivial⟩
  have hdone : ∀ r s, (Task.done r : Task (Option Ty × Progress)).Safe
      (framing i.env.ownRecord?) (fun _ _ => True) s := fun _ _ _ _ => trivial
  induction depth, n, p using i.typeTask_induction generalizing s with
  | outside depth n p h =>
    rw [typeTask_outside h]
    exact safe_count (hcount _) (hdone _ s)
  | cycle depth n p h ha =>
    rw [typeTask_cycle h ha]
    exact safe_count (hcount _) (safe_count (hcount _) (hdone _ s))
  | tooDeep n p h ha =>
    rw [typeTask_zero h ha]
    exact safe_count (hcount _) (safe_count (hcount _) (hdone _ s))
  | derive depth n p h ha ih =>
    rw [typeTask_succ h ha]
    refine safe_count (hcount _) (safe_deriveWith (hcount _) (fun s' _ => ⟨.fetched s' n, trivial⟩)
      (fun _ _ _ _ => hdone _ _) (fun s' _ _ => framed_ruleTask ih _ _ _) fun r s' _ _ => ?_)
    exact .inr ⟨⟨.kept .., trivial⟩, hdone _ _⟩

end Inference

/-! ## The engine under a run -/

namespace Progress

@[simp] theorem toFinset_files_note (p : Progress) (f : FileId) :
    (p.note f).files.toFinset = insert f p.files.toFinset := by
  unfold note
  split
  next h => simpa using (Finset.insert_eq_of_mem (by simpa using h)).symm
  · ext
    simp

@[simp] theorem toFinset_files_noteAll (p : Progress) (files : List FileId) :
    (p.noteAll files).files.toFinset = p.files.toFinset ∪ files.toFinset := by
  induction files generalizing p with
  | nil => simp [noteAll]
  | cons f files ih =>
    refine (ih (p.note f)).trans ?_
    simp [Finset.insert_union]

end Progress

namespace Engine

variable {β : Type} {e e' e'' : Engine}

/-- What an engine does one after the other. -/
theorem run_bind (e : Engine) (t : Progress → Task (α × Progress))
    (f : α → Progress → Task (β × Progress)) :
    e.run (fun p => (t p).bind fun r => f r.1 r.2) = (e.run t).2.run (f (e.run t).1) := by
  simp only [run, Task.run_bind]

/-- How often a question was cut off. -/
def cuts (e : Engine) : Nat := e.toShared.cuts

/-- The current computation reads a file. -/
def note (file : FileId) (e : Engine) : Engine := { e with toProgress := e.toProgress.note file }

def noteAll (files : List FileId) (e : Engine) : Engine :=
  { e with toProgress := e.toProgress.noteAll files }

/-- Begins the computation of a node. -/
def enter (e : Engine) (node : NodeId) : Engine :=
  ⟨e.toShared.count { computed := 1 }, e.toProgress.enter node⟩

/-- Counts a question. -/
def queried (e : Engine) : Engine := { e with toShared := e.toShared.count { queries := 1 } }

/-- Cuts a question off because its node is under way. -/
def cycled (e : Engine) : Engine :=
  { e.queried with toShared := e.queried.toShared.count { cycles := 1 } }

/-- Cuts a question off because it is too deep. -/
def tooDeep (e : Engine) : Engine :=
  { e.queried with toShared := e.queried.toShared.count { depthCutoffs := 1 } }

/-- The engine after it has looked a node up. -/
def consulted (e : Engine) (n : NodeId) : Engine :=
  { e.queried with toShared := e.queried.toShared.fetched n }

@[simp] theorem cuts_cycled : e.cycled.cuts = e.cuts + 1 :=
  Nat.add_right_comm e.counters.cycles 1 e.counters.depthCutoffs

@[simp] theorem cuts_tooDeep : e.tooDeep.cuts = e.cuts + 1 := rfl

@[simp] theorem cache_consulted : (e.consulted n).cache = (e.cache.fetch n).2 := rfl

@[simp] theorem active_consulted : (e.consulted n).active = e.active := rfl

@[simp] theorem files_consulted : (e.consulted n).files = e.files := rfl

@[simp] theorem cuts_consulted : (e.consulted n).cuts = e.cuts := rfl

@[simp] theorem cache_enter : (e.enter n).cache = e.cache := rfl

@[simp] theorem active_enter : (e.enter n).active = n :: e.active := rfl

@[simp] theorem files_enter : (e.enter n).files = [] := rfl

@[simp] theorem cuts_enter : (e.enter n).cuts = e.cuts := rfl

/-- The engine after a computation, with what it leaves in the cache, back at one that has read
`files`. -/
def concluded (e : Engine) (files : List FileId) (cache : Cache) : Engine :=
  { e with cache, active := e.active.tail, files }

@[simp] theorem cache_concluded {files : List FileId} : (e.concluded files c).cache = c := rfl

@[simp] theorem active_concluded {files : List FileId} :
    (e.concluded files c).active = e.active.tail := rfl

@[simp] theorem files_concluded {files : List FileId} : (e.concluded files c).files = files := rfl

@[simp] theorem cuts_concluded {files : List FileId} : (e.concluded files c).cuts = e.cuts := rfl

@[simp] theorem cache_note (e : Engine) (f : FileId) : (e.note f).cache = e.cache := rfl

@[simp] theorem active_note (e : Engine) (f : FileId) : (e.note f).active = e.active :=
  e.toProgress.active_note f

@[simp] theorem counters_note (e : Engine) (f : FileId) : (e.note f).counters = e.counters := rfl

@[simp] theorem cuts_note (e : Engine) (f : FileId) : (e.note f).cuts = e.cuts := rfl

@[simp] theorem cache_noteAll (e : Engine) (files : List FileId) :
    (e.noteAll files).cache = e.cache := rfl

@[simp] theorem active_noteAll (e : Engine) (files : List FileId) :
    (e.noteAll files).active = e.active := e.toProgress.active_noteAll files

@[simp] theorem counters_noteAll (e : Engine) (files : List FileId) :
    (e.noteAll files).counters = e.counters := rfl

@[simp] theorem cuts_noteAll (e : Engine) (files : List FileId) :
    (e.noteAll files).cuts = e.cuts := rfl

@[simp] theorem toFinset_files_note (e : Engine) (f : FileId) :
    (e.note f).files.toFinset = insert f e.files.toFinset := e.toProgress.toFinset_files_note f

@[simp] theorem toFinset_files_noteAll (e : Engine) (files : List FileId) :
    (e.noteAll files).files.toFinset = e.files.toFinset ∪ files.toFinset :=
  e.toProgress.toFinset_files_noteAll files

/-- What every run leaves as it was: the nodes under way, the questions cut off before, and the
frame of the cache. -/
structure Frame (found : QName → Option Record) (e e' : Engine) : Prop where
  active : e'.active = e.active
  cycles_le : e.counters.cycles ≤ e'.counters.cycles
  depthCutoffs_le : e.counters.depthCutoffs ≤ e'.counters.depthCutoffs
  cache : e.cache.Frame found e'.cache

namespace Frame

variable {found : QName → Option Record}

theorem cuts_le (h : Frame found e e') : e.cuts ≤ e'.cuts :=
  Nat.add_le_add h.cycles_le h.depthCutoffs_le

/-- A run that is not cut off is not cut off in its parts. -/
theorem uncut_split (h : Frame found e e') (h' : Frame found e' e'') (hcuts : e''.cuts = e.cuts) :
    e'.cuts = e.cuts ∧ e''.cuts = e'.cuts := by
  have := h.cuts_le
  have := h'.cuts_le
  omega

theorem note (e : Engine) (f : FileId) : Frame found e (e.note f) :=
  ⟨by simp, by simp, by simp, by simpa using .refl _⟩

end Frame

end Engine

namespace Inference

variable {i : Inference} {e : Engine} {depth : Nat}

/-! ## Look-ups of records -/

/-- The record of a struct: the indexed one, or that of a struct of the program, which is indexed
then, or that of the library. -/
def lookup (i : Inference) (name : QName) (c : Cache) : Option Record × Cache :=
  match c.record? name with
  | some r => (some r, c)
  | none =>
    match i.env.ownRecord? name with
    | some r => (some r, (c.indexRecordAt name r i.generation).2)
    | none => (i.env.found? name, c)

theorem run_recordTask (i : Inference) (q : QName) (s : Shared) :
    (i.recordTask q).run s =
      ((i.lookup q s.cache).1, { s with cache := (i.lookup q s.cache).2 }) := by
  have hact : s.act (.access (.record q)) = (s.cache.record? q, s) := rfl
  rw [recordTask, Task.bind_eq_bind, Task.run_bind, Task.record?, Task.run, hact, lookup]
  cases s.cache.record? q with
  | some r => rfl
  | none =>
    rw [Env.ownRecord?, Env.found?]
    cases i.env.findStruct? q with
    | none => rfl
    | some decl =>
      cases hr : i.env.structRecord? decl with
      | none =>
        simp only [Option.bind_some, hr]
        rfl
      | some r =>
        simp only [Option.bind_some, hr]
        rfl

theorem lookup_fst (i : Inference) (q : QName) (c : Cache) :
    (i.lookup q c).1 = (c.record? q).or (i.env.found? q) := by
  unfold lookup
  cases c.record? q with
  | some r => rfl
  | none =>
    cases hr : i.env.ownRecord? q with
    | some r => simp [Env.found?_of_ownRecord? hr]
    | none => rfl

/-- A look-up may put the record that it has found into the index, and does nothing else. -/
theorem lookup_snd_cases (i : Inference) (q : QName) (c : Cache) :
    (i.lookup q c).2 = c ∨ ∃ r, c.record? q = none ∧ i.env.ownRecord? q = some r ∧
      (i.lookup q c).2 = c.indexRecord q r := by
  unfold lookup
  cases hq : c.record? q with
  | some r => exact .inl rfl
  | none =>
    cases hr : i.env.ownRecord? q with
    | none => exact .inl rfl
    | some r =>
      simp only [Cache.indexRecordAt]
      split
      · exact .inr ⟨r, by simp⟩
      · exact .inl rfl

theorem frame_lookup (i : Inference) (q : QName) (c : Cache) :
    c.Frame i.env.ownRecord? (i.lookup q c).2 := by
  unfold lookup
  cases hq : c.record? q with
  | some r => exact .refl c
  | none =>
    cases hr : i.env.ownRecord? q with
    | none => exact .refl c
    | some r => exact .indexRecordAt (by rw [hq, Option.none_or, hr]) hr i.generation

@[simp] theorem served?_lookup (i : Inference) (q : QName) (c : Cache) (n : NodeId) :
    (i.lookup q c).2.served? n = c.served? n := by
  obtain h | ⟨r, -, -, h⟩ := i.lookup_snd_cases q c <;> rw [h]
  exact Cache.served?_congr (by rfl) (by rfl) (by rfl) n

theorem wellTimed_lookup (i : Inference) (q : QName) (hc : c.WellTimed) :
    (i.lookup q c).2.WellTimed := by
  refine hc.of_unedited (i.frame_lookup q c).toUnedited ?_
  obtain h | ⟨r, -, -, h⟩ := i.lookup_snd_cases q c <;> rw [h] <;> exact hc.entry

/-- Looking a record up. -/
def ask (i : Inference) (q : QName) (e : Engine) : Option Record × Engine :=
  ((i.lookup q e.cache).1, { e with cache := (i.lookup q e.cache).2 })

theorem frame_ask (i : Inference) (q : QName) (e : Engine) :
    e.Frame i.env.ownRecord? (i.ask q e).2 :=
  ⟨rfl, Nat.le_refl _, Nat.le_refl _, i.frame_lookup q e.cache⟩

/-! ## Rules -/

/-- The run of a rule, given how an engine answers questions. -/
def performWith (i : Inference) (infer : NodeId → Engine → Option Ty × Engine) :
    Rule α → Engine → α × Engine
  | .done a, e => (a, e)
  | .ask node next, e => i.performWith infer (next (infer node e).1) (infer node e).2
  | .askRecord name next, e => i.performWith infer (next (i.ask name e).1) (i.ask name e).2
  | .read file next, e => i.performWith infer next (e.note file)

/-- The answer of an engine to a question, with at most `depth` nested computations. -/
def inferWithin (i : Inference) (depth : Nat) (n : NodeId) (e : Engine) : Option Ty × Engine :=
  e.run (i.typeTask depth n)

/-- An engine by itself runs a rule one question after the other. -/
theorem run_ruleTask (i : Inference) (depth : Nat) (rule : Rule α) (e : Engine) :
    e.run (i.ruleTask (i.typeTask depth) rule) = i.performWith (i.inferWithin depth) rule e := by
  induction rule generalizing e with
  | done a => rfl
  | ask node next ih => exact (e.run_bind _ fun t => i.ruleTask _ (next t)).trans (ih _ _)
  | askRecord name next ih =>
    refine Eq.trans ?_ (ih _ _)
    simp only [Engine.run, ruleTask_askRecord, Task.run_bind, run_recordTask, ask]
  | read file next ih => exact ih (e.note file)

theorem perform_eq (i : Inference) (rule : Rule α) (e : Engine) :
    i.perform rule e = i.performWith (i.inferWithin (i.depthLeft e)) rule e :=
  i.run_ruleTask _ rule e

theorem infer_eq_inferWithin (i : Inference) (n : NodeId) (e : Engine) :
    i.infer n e = i.inferWithin (i.depthLeft e) n e := i.perform_eq (.typeOf? n) e

section PerformWith

variable {infer : NodeId → Engine → Option Ty × Engine}

@[simp] theorem performWith_done (a : α) : i.performWith infer (.done a) e = (a, e) := rfl

@[simp] theorem performWith_ask (node : NodeId) (next : Option Ty → Rule α) :
    i.performWith infer (.ask node next) e =
      i.performWith infer (next (infer node e).1) (infer node e).2 := rfl

@[simp] theorem performWith_askRecord (name : QName) (next : Option Record → Rule α) :
    i.performWith infer (.askRecord name next) e =
      i.performWith infer (next (i.ask name e).1) (i.ask name e).2 := rfl

@[simp] theorem performWith_read (file : FileId) (next : Rule α) :
    i.performWith infer (.read file next) e = i.performWith infer next (e.note file) := rfl

theorem performWith_bind {β : Type} (rule : Rule α) (next : α → Rule β) :
    i.performWith infer (rule.bind next) e =
      i.performWith infer (next (i.performWith infer rule e).1) (i.performWith infer rule e).2 := by
  induction rule generalizing e with
  | done a => rfl
  | ask node next' ih => exact ih _
  | askRecord name next' ih => exact ih _
  | read file next' ih => exact ih

end PerformWith

/-- An engine that runs what stays in the frame is in the frame. -/
theorem frame_run {t : Progress → Task (α × Progress)}
    (hactive : ∀ p, (t p).Always fun r => r.2.active = p.active)
    (hframe : ∀ p s, (t p).Safe (framing i.env.ownRecord?) (fun _ _ => True) s) (e : Engine) :
    e.Frame i.env.ownRecord? (e.run t).2 := by
  obtain hlost | ⟨hrun, -⟩ := (hframe e.toProgress e.toShared).run trivial
  · exact hlost.elim
  · exact ⟨(hactive e.toProgress).run e.toShared, hrun.le.cycles_le, hrun.le.depthCutoffs_le,
      hrun.le.cache⟩

theorem frame_inferWithin (i : Inference) (depth : Nat) (n : NodeId) (e : Engine) :
    e.Frame i.env.ownRecord? (i.inferWithin depth n e).2 :=
  frame_run (i.always_typeTask depth n) (i.framed_typeTask depth n) e

theorem frame_performWith (i : Inference) (depth : Nat) (rule : Rule α) (e : Engine) :
    e.Frame i.env.ownRecord? (i.performWith (i.inferWithin depth) rule e).2 := by
  rw [← run_ruleTask]
  exact frame_run (always_ruleTask (i.always_typeTask depth) rule)
    (framed_ruleTask (i.framed_typeTask depth) rule) e

/-! ## Questions

The four ways in which a question ends. -/

theorem inferWithin_outside (h : i.env.program.contains n = false) :
    i.inferWithin depth n e = (none, e.queried) := by
  rw [inferWithin, Engine.run, typeTask_outside h]
  rfl

theorem inferWithin_active (h : i.env.program.contains n = true) (ha : n ∈ e.active) :
    i.inferWithin depth n e = (some .unknown, e.cycled) := by
  rw [inferWithin, Engine.run, typeTask_cycle h ha]
  rfl

theorem inferWithin_zero (h : i.env.program.contains n = true) (ha : n ∉ e.active) :
    i.inferWithin 0 n e = (some .unknown, e.tooDeep) := by
  rw [inferWithin, Engine.run, typeTask_zero h ha]
  rfl

/-- A question about a node of the program that is not cut off. -/
theorem depth_pos_of_uncut (h : i.env.program.contains n = true)
    (hcuts : (i.inferWithin depth n e).2.cuts = e.cuts) :
    n ∉ e.active ∧ ∃ depth', depth = depth' + 1 := by
  have ha : n ∉ e.active := by
    intro ha
    simp [inferWithin_active h ha] at hcuts
  refine ⟨ha, ?_⟩
  cases depth with
  | zero =>
    simp [inferWithin_zero h ha] at hcuts
  | succ depth => exact ⟨depth, rfl⟩

/-- A question that the cache answers. -/
theorem inferWithin_hit (h : i.env.program.contains n = true) (ha : n ∉ e.active)
    (hx : e.cache.served? n = some x) :
    i.inferWithin (depth + 1) n e =
      (some x.ty, ((e.consulted n).note n.file).noteAll x.deps) := by
  have hx : (e.toShared.count { queries := 1 }).cache.served? n = some x := hx
  rw [inferWithin, Engine.run, typeTask_succ h ha, deriveWith_eq, run_count, run_fetch, hx]
  rfl

/-- The run of the rule of a node. -/
def body (i : Inference) (depth : Nat) (n : NodeId) (e : Engine) : Option Ty × Engine :=
  i.performWith (i.inferWithin depth) (i.env.rule n) ((e.consulted n).enter n)

/-- What the run of the rule of a node leaves in the cache, its result included. -/
def kept (i : Inference) (depth : Nat) (n : NodeId) (e : Engine) : Cache :=
  (i.body depth n e).2.cache.keep n (i.body depth n e).1 i.generation (i.body depth n e).2.files

theorem frame_body (i : Inference) (depth : Nat) (n : NodeId) (e : Engine) :
    ((e.consulted n).enter n).Frame i.env.ownRecord? (i.body depth n e).2 :=
  i.frame_performWith depth (i.env.rule n) _

/-- A question that the cache does not answer: the rule is run and its result is kept. -/
theorem inferWithin_miss (h : i.env.program.contains n = true) (ha : n ∉ e.active)
    (hx : e.cache.served? n = none) :
    i.inferWithin (depth + 1) n e = ((i.body depth n e).1,
      (((i.body depth n e).2.concluded e.files (i.kept depth n e)).note n.file).noteAll
        (i.body depth n e).2.files) := by
  have hbody : (i.ruleTask (i.typeTask depth) (i.env.rule n) (e.toProgress.enter n)).run
      (((e.toShared.count { queries := 1 }).fetched n).count { computed := 1 }) =
        (((i.body depth n e).1, (i.body depth n e).2.toProgress),
          (i.body depth n e).2.toShared) := by
    rw [body, ← run_ruleTask]
    rfl
  -- the nodes under way are those of before, with the node on top
  have hprogress : ((i.body depth n e).2.concluded e.files (i.kept depth n e)).toProgress =
      e.toProgress := by
    have hactive := (i.frame_body depth n e).active
    simp only [Engine.concluded, hactive]
    rfl
  have hx : (e.toShared.count { queries := 1 }).cache.served? n = none := hx
  rw [inferWithin, Engine.run, typeTask_succ h ha, deriveWith_eq, run_count, run_fetch, hx]
  dsimp only
  rw [run_count, Task.run_bind, hbody, run_keep, Engine.noteAll, Engine.note, hprogress]
  rfl

theorem cache_inferWithin_miss (h : i.env.program.contains n = true) (ha : n ∉ e.active)
    (hx : e.cache.served? n = none) :
    (i.inferWithin (depth + 1) n e).2.cache = i.kept depth n e := by
  rw [inferWithin_miss h ha hx]
  simp

theorem cuts_inferWithin_miss (h : i.env.program.contains n = true) (ha : n ∉ e.active)
    (hx : e.cache.served? n = none) :
    (i.inferWithin (depth + 1) n e).2.cuts = (i.body depth n e).2.cuts := by
  rw [inferWithin_miss h ha hx]
  simp

/-- Induction over questions. What holds of those that end at once, and of a question whose rule is
run if it holds of all questions at less depth, holds of every question. -/
theorem inferWithin_induction (i : Inference) {motive : Nat → NodeId → Engine → Prop}
    (outside : ∀ depth n e, i.env.program.contains n = false → motive depth n e)
    (cycle : ∀ depth n e, i.env.program.contains n = true → n ∈ e.active → motive depth n e)
    (tooDeep : ∀ n e, i.env.program.contains n = true → n ∉ e.active → motive 0 n e)
    (hit : ∀ depth n e x, i.env.program.contains n = true → n ∉ e.active →
      e.cache.served? n = some x → motive (depth + 1) n e)
    (miss : ∀ depth n e, i.env.program.contains n = true → n ∉ e.active →
      e.cache.served? n = none → (∀ m e, motive depth m e) → motive (depth + 1) n e)
    (depth : Nat) (n : NodeId) (e : Engine) : motive depth n e := by
  induction depth generalizing n e with
  | zero =>
    cases h : i.env.program.contains n with
    | false => exact outside 0 n e h
    | true =>
      by_cases ha : n ∈ e.active
      · exact cycle 0 n e h ha
      · exact tooDeep n e h ha
  | succ depth ih =>
    cases h : i.env.program.contains n with
    | false => exact outside (depth + 1) n e h
    | true =>
      by_cases ha : n ∈ e.active
      · exact cycle (depth + 1) n e h ha
      cases hx : e.cache.served? n with
      | some x => exact hit depth n e x h ha hx
      | none => exact miss depth n e h ha hx ih

/-- Induction over questions that are not cut off. -/
theorem uncut_induction (i : Inference)
    {motive : ∀ depth n (e : Engine), (i.inferWithin depth n e).2.cuts = e.cuts → Prop}
    (outside : ∀ depth n e hcuts, i.env.program.contains n = false → motive depth n e hcuts)
    (hit : ∀ depth n e hcuts x, i.env.program.contains n = true → n ∉ e.active →
      e.cache.served? n = some x → motive (depth + 1) n e hcuts)
    (miss : ∀ depth n e hcuts, i.env.program.contains n = true → n ∉ e.active →
      e.cache.served? n = none → (i.body depth n e).2.cuts = e.cuts →
      (∀ m e hcuts, motive depth m e hcuts) → motive (depth + 1) n e hcuts)
    (depth : Nat) (n : NodeId) (e : Engine) (hcuts : (i.inferWithin depth n e).2.cuts = e.cuts) :
    motive depth n e hcuts := by
  induction depth, n, e using i.inferWithin_induction with
  | outside depth n e h => exact outside depth n e hcuts h
  | cycle depth n e h ha => exact absurd ha (depth_pos_of_uncut h hcuts).1
  | tooDeep n e h ha =>
    obtain ⟨-, depth, hdepth⟩ := depth_pos_of_uncut h hcuts
    cases hdepth
  | hit depth n e x h ha hx => exact hit depth n e hcuts x h ha hx
  | miss depth n e h ha hx ih =>
    exact miss depth n e hcuts h ha hx ((cuts_inferWithin_miss h ha hx).symm.trans hcuts) ih

theorem frame_kept (i : Inference) (depth : Nat) (n : NodeId) (e : Engine) :
    (i.body depth n e).2.cache.Frame i.env.ownRecord? (i.kept depth n e) := .keep ..

/-- A question that sweeps nothing: neither the run of the rule nor keeping its result does. -/
theorem unswept_body (h : i.env.program.contains n = true) (ha : n ∉ e.active)
    (hx : e.cache.served? n = none)
    (hsweeps : (i.inferWithin (depth + 1) n e).2.cache.counters.sweeps =
      e.cache.counters.sweeps) :
    (i.body depth n e).2.cache.counters.sweeps =
        ((e.consulted n).enter n).cache.counters.sweeps ∧
      (i.kept depth n e).counters.sweeps = (i.body depth n e).2.cache.counters.sweeps := by
  rw [cache_inferWithin_miss h ha hx] at hsweeps
  have hfetch : e.cache.Frame i.env.ownRecord? ((e.consulted n).enter n).cache := .fetch e.cache n
  have hbody := (i.frame_body depth n e).cache
  have hkept := i.frame_kept depth n e
  exact hbody.unswept_split hkept (hfetch.unswept_split (hbody.trans hkept) hsweeps).2

/-! ## Runs of rules -/

theorem frame_perform (rule : Rule α) : e.Frame i.env.ownRecord? (i.perform rule e).2 :=
  i.perform_eq rule e ▸ i.frame_performWith _ rule e

theorem perform_bind {β : Type} (rule : Rule α) (next : α → Rule β) :
    i.perform (rule >>= next) e =
      i.perform (next (i.perform rule e).1) (i.perform rule e).2 := by
  have hdepth : i.depthLeft (i.perform rule e).2 = i.depthLeft e := by
    rw [depthLeft, depthLeft, (frame_perform rule).active]
  rw [perform_eq, perform_eq _ (next _), hdepth, perform_eq]
  exact performWith_bind rule next

/-- The record of a name that an engine has in its index, or else finds. -/
def known? (i : Inference) (e : Engine) (q : QName) : Option Record :=
  (e.cache.record? q).or (i.env.found? q)

theorem known?_perform (rule : Rule α) : i.known? (i.perform rule e).2 = i.known? e :=
  funext ((frame_perform rule).cache.mono Env.found?_of_ownRecord?).records

end Inference

end MoveTyping
