import MoveTyping.Program
import MoveTyping.Tree.Build
import MoveTyping.Proofs.Cache.Operations

/-!
# Computations that race with edits

Many computations share one cache while the trees are edited. A computation reads the generation of
the cache, later takes a snapshot of the trees, and later inserts what it has computed from the
snapshot, with the files that it has read. An edit changes the trees first and tells the cache
later. Each of these calls is one step, and the steps come in any order.

The order inside each party is what makes this safe. An edit whose trees a snapshot misses has not
told the cache yet when the snapshot is taken, so the generation that it is going to start is later
than the one the computation has read.

## Main definitions

* `Computation` — a type that is computed from the trees of some files.
* `System`, `System.step`, `System.run` — the cache, the trees and all computations under way, and
  what happens to them.
* `System.Inv` — what every step keeps.
-/

namespace MoveTyping

/-- Whether a file has the same tree in both, of the same revision. -/
def Sources.SameTree (s s' : Sources) (f : FileId) : Prop :=
  s.program.tree? f = s'.program.tree? f ∧ s.revisions.get? f = s'.revisions.get? f

/-- The type of a node as a function of the program, with the files that it reads. No other file
but the node's own has an influence on the type. -/
structure Computation where
  node : NodeId
  result : Program → Ty
  reads : Program → List FileId
  result_congr : ∀ p q, (∀ f ∈ node.file :: reads p, p.tree? f = q.tree? f) → result p = result q

/-- An insertion that was called: what was computed, from which snapshot, and the files that were
named. The computation has read no file that is not named. -/
structure Insertion where
  computation : Computation
  snapshot : Sources
  named : List FileId
  covers : ∀ f ∈ computation.reads snapshot.program, f ∈ computation.node.file :: named

/-- Whether a cached type of a node stems from an insertion. -/
structure Insertion.Explains (i : Insertion) (n : NodeId) (x : Cached) : Prop where
  node : i.computation.node = n
  ty : x.ty = i.computation.result i.snapshot.program
  deps : x.deps = Cache.otherFiles n.file i.named

theorem Insertion.Explains.reads {i : Insertion} {n : NodeId} {x : Cached} (h : i.Explains n x) :
    ∀ f ∈ i.computation.reads i.snapshot.program, f ∈ n.file :: x.deps := by
  intro f hf
  have hnamed := i.covers f hf
  rw [h.node] at hnamed
  simp only [List.mem_cons, h.deps, Cache.mem_otherFiles] at hnamed ⊢
  grind

/-- A computation under way: the generation it has read, and its snapshot once it has one. -/
structure Job where
  generation : Nat
  snapshot : Option Sources := none

structure System where
  sources : Sources
  cache : Cache
  jobs : List Job := []
  /-- The files that were changed and of which the cache was not told since. -/
  untold : List FileId := []
  /-- All insertions so far. -/
  insertions : List Insertion := []

inductive System.Action where
  /-- A new computation reads the generation. -/
  | start
  | snapshot (job : Nat)
  | insert (job : Nat) (computation : Computation) (named : List FileId)
  | lookUp (node : NodeId)
  | install (t : Tree)
  | remove (file : FileId)
  | upkeep (call : Cache.Upkeep)

namespace System

def initial (settings : CacheSettings) (sources : Sources) : System :=
  { sources, cache := .ofSettings settings }

/-- The source change of an edit. -/
def change (s : System) (file : FileId) (sources : Sources) : System :=
  { s with sources, untold := file :: s.untold }

/-- The files that are left untold by a call. -/
def leftUntold (untold : List FileId) : Cache.Upkeep → List FileId
  | .invalidate file | .retire file => untold.filter (· ≠ file)
  | .clear => []
  | _ => untold

/-- Inserts what was computed from a snapshot, if all files that were read are named. -/
def insert (s : System) (generation : Nat) (snapshot : Sources) (computation : Computation)
    (named : List FileId) : System :=
  if covers : ∀ f ∈ computation.reads snapshot.program, f ∈ computation.node.file :: named then
    let ty := computation.result snapshot.program
    { s with
      cache := (s.cache.insert computation.node ty generation named).2
      insertions := ⟨computation, snapshot, named, covers⟩ :: s.insertions }
  else s

def step (s : System) : Action → System
  | .start => { s with jobs := s.jobs ++ [{ generation := s.cache.generation }] }
  | .snapshot k => { s with jobs := s.jobs.modify k ({ · with snapshot := some s.sources }) }
  | .insert k computation named =>
    match s.jobs[k]? with
    | some ⟨generation, some snapshot⟩ => s.insert generation snapshot computation named
    | _ => s
  | .lookUp node => { s with cache := (s.cache.fetch node).2 }
  | .install t => s.change t.file (s.sources.install t).2
  | .remove file =>
    match s.sources.remove file with
    | (true, sources) => s.change file sources
    | (false, _) => s
  | .upkeep call =>
    { s with cache := s.cache.maintain call, untold := leftUntold s.untold call }

def run (s : System) (actions : List Action) : System := actions.foldl step s

/-! ## The invariant -/

/-- A snapshot that was taken under a generation shows every file as it is, unless the file is
marked with a later edit or is going to be. -/
def Faithful (s : System) (generation : Nat) (snapshot : Sources) : Prop :=
  s.cache.clearedAt ≤ generation → ∀ f, s.cache.isCurrent generation f →
    f ∈ s.untold ∨ snapshot.SameTree s.sources f

structure Inv (s : System) : Prop where
  timed : s.cache.WellTimed
  past : ∀ j ∈ s.jobs, j.generation ≤ s.cache.generation
  faithful : ∀ j ∈ s.jobs, ∀ snapshot ∈ j.snapshot, s.Faithful j.generation snapshot
  served : ∀ {n x}, s.cache.served? n = some x → x.ty.hasUnknown = false ∧
    ∃ i ∈ s.insertions, i.Explains n x ∧
      ∀ f ∈ n.file :: x.deps, f ∈ s.untold ∨ i.snapshot.SameTree s.sources f

variable {s : System}

theorem inv_initial (settings : CacheSettings) (sources : Sources) :
    (initial settings sources).Inv where
  timed := .ofSettings settings
  past := by simp [initial]
  faithful := by simp [initial]
  served h := by simp [initial] at h

/-- Nothing is lost when the cache forgets something. -/
theorem Inv.forget (hs : s.Inv) {cache : Cache} (hu : s.cache.Unedited cache)
    (ht : cache.WellTimed) (hserved : ∀ {n x}, cache.served? n = some x →
      s.cache.served? n = some x) : Inv { s with cache } where
  timed := ht
  past j hj := by simpa [hu.generation] using hs.past j hj
  faithful j hj snapshot hsnap := by
    have := hs.faithful j hj snapshot hsnap
    simpa [Faithful, Cache.isCurrent, hu.clearedAt, hu.invalidatedAt] using this
  served h := hs.served (hserved h)

/-- Records have no part in what is served. -/
theorem Inv.reindex (hs : s.Inv) (index : Table QName Record) :
    Inv { s with cache := { s.cache with index } } := by
  have hserved (n : NodeId) : Cache.served? { s.cache with index } n = s.cache.served? n := by
    apply Cache.served?_congr <;> rfl
  exact hs.forget ⟨rfl, rfl, rfl, rfl⟩
    ⟨hs.timed.cleared, hs.timed.invalidated, hs.timed.entry⟩ fun h => (hserved _).symm.trans h

theorem Inv.start (hs : s.Inv) : (s.step .start).Inv where
  timed := hs.timed
  past j hj := by
    rcases List.mem_append.1 hj with hj | hj
    · exact hs.past j hj
    · obtain rfl := List.mem_singleton.1 hj
      exact Nat.le_refl _
  faithful j hj snapshot hsnap := by
    rcases List.mem_append.1 hj with hj | hj
    · exact hs.faithful j hj snapshot hsnap
    · obtain rfl := List.mem_singleton.1 hj
      exact nomatch hsnap
  served := hs.served

theorem Inv.snapshot (hs : s.Inv) (k : Nat) : (s.step (.snapshot k)).Inv where
  timed := hs.timed
  past j hj := by
    obtain ⟨i, hi⟩ := List.mem_iff_getElem?.1 hj
    obtain ⟨j', hj', rfl⟩ := Option.map_eq_some_iff.1 (List.getElem?_modify .. ▸ hi)
    have := hs.past j' (List.mem_of_getElem? hj')
    split <;> exact this
  faithful j hj snapshot hsnap := by
    obtain ⟨i, hi⟩ := List.mem_iff_getElem?.1 hj
    obtain ⟨j', hj', rfl⟩ := Option.map_eq_some_iff.1 (List.getElem?_modify .. ▸ hi)
    split at hsnap
    next hk =>
      obtain rfl := Option.some.inj hsnap
      exact fun _ f _ => .inr ⟨rfl, rfl⟩
    next hk =>
      rw [if_neg hk]
      exact hs.faithful j' (List.mem_of_getElem? hj') snapshot hsnap
  served := hs.served

/-- A source change touches one file, of which the cache is to be told. -/
theorem Inv.change (hs : s.Inv) {file : FileId} {sources : Sources}
    (hsame : ∀ f, f ≠ file → s.sources.SameTree sources f) : (s.change file sources).Inv := by
  -- what agreed with the trees before does so still, except in the changed file
  have keep : ∀ {snapshot : Sources} {f}, (f ∈ s.untold ∨ snapshot.SameTree s.sources f) →
      f ∈ file :: s.untold ∨ snapshot.SameTree sources f := by
    intro snapshot f hf
    by_cases hfile : f = file
    · exact .inl (by simp [hfile])
    · obtain ⟨ht, hr⟩ := hsame f hfile
      exact hf.imp (List.mem_cons_of_mem _) fun h => ⟨h.1.trans ht, h.2.trans hr⟩
  refine ⟨hs.timed, hs.past, ?_, ?_⟩
  · intro j hj snapshot hsnap hcleared f hcurrent
    exact keep (hs.faithful j hj snapshot hsnap hcleared f hcurrent)
  · intro n x hx
    obtain ⟨hknown, i, hi, hexplains, hfiles⟩ := hs.served hx
    exact ⟨hknown, i, hi, hexplains, fun f hf => keep (hfiles f hf)⟩

theorem sameTree_install (s : Sources) (t : Tree) {f : FileId} (hf : f ≠ t.file) :
    s.SameTree (s.install t).2 f := by
  constructor
  · simp [Sources.install, Program.tree?_insert, hf]
  · simp [Sources.install, Table.get?_insert, hf]

theorem sameTree_remove {s s' : Sources} {file f : FileId} (h : s.remove file = (true, s'))
    (hf : f ≠ file) : s.SameTree s' f := by
  unfold Sources.remove at h
  split at h
  · obtain rfl := (Prod.mk.inj h).2
    constructor
    · simp [Program.tree?_erase, hf]
    · simp [Table.get?_erase, hf]
  · exact nomatch (Prod.mk.inj h).1

/-- Once the cache is told of a file, nothing is current in it that was read before. -/
theorem Inv.invalidate (hs : s.Inv) (file : FileId) :
    (s.step (.upkeep (.invalidate file))).Inv := by
  -- files other than the invalidated one remain untold
  have keep : ∀ {snapshot : Sources} {f}, f ≠ file →
      (f ∈ s.untold ∨ snapshot.SameTree s.sources f) →
      f ∈ s.untold.filter (· ≠ file) ∨ snapshot.SameTree s.sources f := by
    intro snapshot f hne hf
    exact hf.imp_left fun h => List.mem_filter.2 ⟨h, by simpa using hne⟩
  refine ⟨hs.timed.invalidate file, fun j hj => Nat.le_succ_of_le (hs.past j hj), ?_, ?_⟩
  · intro j hj snapshot hsnap hcleared f hcurrent
    have hpast := hs.past j hj
    simp only [System.step, Cache.maintain, Cache.isCurrent_invalidate] at hcurrent
    split at hcurrent
    · simp only [decide_eq_true_eq] at hcurrent
      exact absurd hcurrent (by omega)
    next hne => exact keep hne (hs.faithful j hj snapshot hsnap hcleared f hcurrent)
  · intro n x hx
    obtain ⟨hx, hown, hdeps⟩ := Cache.served?_of_invalidate hs.timed hx
    obtain ⟨hknown, i, hi, hexplains, hfiles⟩ := hs.served hx
    refine ⟨hknown, i, hi, hexplains, fun f hf => keep ?_ (hfiles f hf)⟩
    rintro rfl
    exact (List.mem_cons.1 hf).elim hown hdeps

theorem Inv.clear (hs : s.Inv) : (s.step (.upkeep .clear)).Inv where
  timed := hs.timed.clear
  past j hj := Nat.le_succ_of_le (hs.past j hj)
  faithful j hj snapshot hsnap hcleared := by
    have hpast := hs.past j hj
    simp only [System.step, Cache.maintain, Cache.clear] at hcleared
    omega
  served h := by simp [System.step, Cache.maintain] at h

theorem Inv.maintain (hs : s.Inv) (call : Cache.Upkeep) : (s.step (.upkeep call)).Inv := by
  cases call with
  | invalidate file => exact hs.invalidate file
  | retire file =>
    exact (hs.invalidate file).forget ⟨rfl, rfl, rfl, rfl⟩ (hs.timed.retire file)
      fun h => (s.cache.served?_retire file _).symm.trans h
  | clear => exact hs.clear
  | revive file =>
    exact hs.forget ⟨rfl, rfl, rfl, rfl⟩ (hs.timed.revive file)
      fun h => (s.cache.served?_revive file _).symm.trans h
  | sweep => exact hs.forget (.sweep _) hs.timed.sweep Cache.served?_of_sweep
  | index name record => exact hs.reindex _
  | unindex name => exact hs.reindex _

/-- What is admitted was computed from trees that are still installed, or of whose change the cache
is going to be told. -/
theorem Inv.insert (hs : s.Inv) {generation : Nat} {snapshot : Sources}
    (hpast : generation ≤ s.cache.generation) (hf : s.Faithful generation snapshot)
    (computation : Computation) (named : List FileId) :
    (s.insert generation snapshot computation named).Inv := by
  unfold System.insert
  split
  · have hu := Cache.Unedited.insert s.cache computation.node
      (computation.result snapshot.program) generation named
    refine ⟨hs.timed.insert _ _ _ hpast, ?_, ?_, ?_⟩
    · exact fun j hj => hu.generation ▸ hs.past j hj
    · intro j hj snapshot' hsnap
      have := hs.faithful j hj snapshot' hsnap
      simpa [Faithful, Cache.isCurrent, hu.clearedAt, hu.invalidatedAt] using this
    · intro n x hx
      obtain ⟨rfl, rfl, hknown, hvalid⟩ | hx := Cache.served?_of_insert hx
      · refine ⟨hknown, _, List.mem_cons_self, ⟨rfl, rfl, rfl⟩, fun f hfile => ?_⟩
        simp only [Cache.isValid, Bool.and_eq_true, decide_eq_true_eq, List.all_eq_true] at hvalid
        exact hf hvalid.1 f (hvalid.2 f hfile)
      · obtain ⟨hknown, i, hi, hexplains, hfiles⟩ := hs.served hx
        exact ⟨hknown, i, List.mem_cons_of_mem _ hi, hexplains, hfiles⟩
  · exact hs

theorem Inv.step (hs : s.Inv) (a : Action) : (s.step a).Inv := by
  cases a with
  | start => exact hs.start
  | snapshot k => exact hs.snapshot k
  | insert k computation named =>
    simp only [System.step]
    split
    next generation snapshot hk =>
      have hmem := List.mem_of_getElem? hk
      exact hs.insert (hs.past _ hmem) (hs.faithful _ hmem snapshot rfl) computation named
    · exact hs
  | install t => exact hs.change fun f hf => sameTree_install s.sources t hf
  | remove file =>
    simp only [System.step]
    split
    next sources h => exact hs.change fun f hf => sameTree_remove h hf
    · exact hs
  | lookUp node => exact hs.forget (.fetch _ node) (hs.timed.fetch node) fun h => by simpa using h
  | upkeep call => exact hs.maintain call

theorem Inv.run (hs : s.Inv) (actions : List Action) : (s.run actions).Inv := by
  induction actions generalizing s with
  | nil => exact hs
  | cons a actions ih => exact ih (hs.step a)

/-- Whatever the interleaving, once the cache was told of every change, a type that it serves has no
unknown parts and was inserted by a computation of that type whose snapshot shows the node's file
and all files that are served with the type as they are now. So the computation would give this type
for the current program as well. -/
theorem fetch_run_of_current_trees (settings : CacheSettings) (sources : Sources)
    (actions : List Action) {n : NodeId} {x : Cached}
    (htold : ((initial settings sources).run actions).untold = [])
    (hx : (((initial settings sources).run actions).cache.fetch n).1 = some x) :
    x.ty.hasUnknown = false ∧ ∃ i ∈ ((initial settings sources).run actions).insertions,
      i.computation.node = n ∧
      x.ty = i.computation.result i.snapshot.program ∧
      x.deps = Cache.otherFiles n.file i.named ∧
      (∀ f ∈ i.computation.reads i.snapshot.program, f ∈ n.file :: x.deps) ∧
      (∀ f ∈ n.file :: x.deps,
        i.snapshot.SameTree ((initial settings sources).run actions).sources f) ∧
      x.ty = i.computation.result ((initial settings sources).run actions).sources.program := by
  obtain ⟨hknown, i, hi, hexplains, hfiles⟩ :=
    ((inv_initial settings sources).run actions).served hx
  have hcurrent : ∀ f ∈ n.file :: x.deps,
      i.snapshot.SameTree ((initial settings sources).run actions).sources f := by
    intro f hf
    simpa [htold] using hfiles f hf
  refine ⟨hknown, i, hi, hexplains.node, hexplains.ty, hexplains.deps, hexplains.reads,
    hcurrent, hexplains.ty.trans (i.computation.result_congr _ _ fun f hf => ?_)⟩
  rw [hexplains.node] at hf
  rcases List.mem_cons.1 hf with rfl | hf
  · exact (hcurrent n.file List.mem_cons_self).1
  · exact (hcurrent f (hexplains.reads f hf)).1

/-- Whether a file is live, as the type of a node in another file. -/
def liveness (node : NodeId) (file : FileId) : Computation where
  node
  result p := if (p.tree? file).isSome then .prim .bool else .unit
  reads _ := [file]
  result_congr p q h := by rw [h file (by simp)]

/-- A file is edited while a computation runs that does not read it. -/
theorem fetch_run_beside_edit :
    let sources := (Sources.initial.install (Build.tree 1 (Build.node .breakExpr))).2
    let actions := [.start, .install (Build.tree 2 (Build.node .breakExpr)), .snapshot 0,
      .insert 0 (liveness ⟨0, 0⟩ 1) [1], .upkeep (.invalidate 2), .upkeep .sweep, .lookUp ⟨0, 0⟩]
    let s := (initial {} sources).run actions
    s.untold = [] ∧ (s.cache.fetch ⟨0, 0⟩).1 = some ⟨.prim .bool, [1]⟩ ∧
      ∃ i ∈ s.insertions, Ty.prim .bool = i.computation.result s.sources.program := by
  intro sources actions s
  have htold : s.untold = [] := by decide +kernel
  have hx : (s.cache.fetch ⟨0, 0⟩).1 = some ⟨.prim .bool, [1]⟩ := by decide +kernel
  obtain ⟨-, i, hi, -, -, -, -, -, hty⟩ := fetch_run_of_current_trees {} sources actions htold hx
  exact ⟨htold, hx, i, hi, hty⟩

end System

end MoveTyping
