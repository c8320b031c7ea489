import MoveTyping.Tree.Build
import MoveTyping.Proofs.Infer.Uncut
import MoveTyping.Proofs.Session.Index
import MoveTyping.Proofs.Session.Queries

/-!
# Memoization

What was asked before has no influence on an answer, as long as nothing is cut off: each node gets
the answer that it gets from a new session, and is kept with the same files. The bound on the depth
is the exception. A node that is asked for deep in a computation may be saved from the cut-off by
what was cached before, so a sweep can lead to a cut-off that a new session does not meet.

## Main definitions

* `Session.cold?` — the answer of a session to a node when nothing else is asked.
-/

namespace MoveTyping.Session

variable {settings : Settings} {catalog : Catalog} {p : Program} {s s₀ : Session} {n : NodeId}

/-! ## Cold runs -/

/-- The answer to a node when nothing else is asked. -/
def cold? (s : Session) (n : NodeId) : Option Ty := (s.infer n).1

/-- The session after only this node was asked for. -/
def afterCold (s : Session) (n : NodeId) : Session := (s.infer n).2

theorem New.cuts (h : New settings catalog p s) : s.cuts = 0 := by
  simp [Session.cuts, h.counters]

theorem New.cuts_infer (h : New settings catalog p s₀) (hclean : (s₀.infer n).2.Clean) :
    (s₀.infer n).2.cuts = s₀.cuts := (clean_iff.1 hclean).trans h.cuts.symm

/-- The questions of a new session are those of a fresh engine. -/
theorem New.uncut (h : New settings catalog p s₀) (hclean : (s₀.afterCold n).Clean) :
    (s₀.inference.inferWithin s₀.inference.limit.limit n (.ofCache s₀.cache)).2.cuts = 0 := by
  have hcuts := s₀.cuts_infer n
  rw [h.cuts_infer hclean, h.cuts] at hcuts
  exact (Nat.zero_add _).symm.trans hcuts.symm

/-- A session that works on the trees of a new session, with a cache of derived types. -/
abbrev Exact (s₀ s : Session) : Prop :=
  s.Consistent s₀.inference (s₀.inference.env.exactTyping s₀.env.record?)

theorem New.exact (h : New settings catalog p s₀) : s₀.Exact s₀ := ⟨rfl, h.pristine.consistent _⟩

theorem Exact.derives (h : s₀.Exact s) (hcuts : (s.infer n).2.cuts = s.cuts) :
    s₀.Exact (s.infer n).2 ∧ ∃ u, s₀.env.Derives s₀.env.record? n (s.infer n).1 u := by
  obtain ⟨h, F, u, hu, -⟩ := h.infer n hcuts
  exact ⟨h, u, hu⟩

/-- A node is served after its answer if the answer has no unknown parts. -/
theorem Exact.serves_infer (h : s₀.Exact s) (hcuts : (s.infer n).2.cuts = s.cuts) {ty : Ty}
    (hty : (s.infer n).1 = some ty) (hknown : ty.hasUnknown = false) :
    ∃ x, (s.infer n).2.cache.served? n = some x := by
  have hrun := s.cuts_infer n
  rw [hcuts, Nat.left_eq_add] at hrun
  obtain ⟨hi, hc⟩ := h
  rw [← hi] at hc
  rw [infer_eq] at hty ⊢
  exact Inference.inferWithin_serves hc hrun hty hknown

/-- After the same question two sessions on the same trees serve the same, files included. -/
theorem Exact.served_infer {s' : Session} (h : s₀.Exact s) (h' : s₀.Exact s')
    (hcuts : (s.infer n).2.cuts = s.cuts) (hcuts' : (s'.infer n).2.cuts = s'.cuts) :
    (s.infer n).2.cache.served? n = (s'.infer n).2.cache.served? n := by
  obtain ⟨hafter, u, hu⟩ := h.derives hcuts
  obtain ⟨hafter', u', hu'⟩ := h'.derives hcuts'
  have hty := (hu.unique hu').1
  -- either side is served whenever the other one is, since both have the same known type
  have key : ∀ {r r' : Session}, s₀.Exact (r.infer n).2 → s₀.Exact r' →
      (r'.infer n).2.cuts = r'.cuts → (r.infer n).1 = (r'.infer n).1 →
      (∃ v, s₀.env.Derives s₀.env.record? n (r.infer n).1 v) → ∀ {x},
      (r.infer n).2.cache.served? n = some x → ∃ y, (r'.infer n).2.cache.served? n = some y := by
    intro r r' hr hr' hcuts hsame hv x hx
    obtain ⟨v, hv⟩ := hv
    obtain ⟨w, hw, -⟩ := hr.cache.served hx
    exact hr'.serves_infer hcuts (hsame ▸ (hv.unique hw).1) (hr.cache.known hx)
  cases hx : (s.infer n).2.cache.served? n with
  | some x =>
    obtain ⟨y, hy⟩ := key hafter h' hcuts' hty ⟨u, hu⟩ hx
    rw [hy, Inference.Exact.served_unique hafter.cache hafter'.cache hx hy]
  | none =>
    cases hy : (s'.infer n).2.cache.served? n with
    | none => rfl
    | some y =>
      obtain ⟨x, hx'⟩ := key hafter' h hcuts hty.symm ⟨u', hu'⟩ hy
      simp [hx] at hx'

/-! ## Runs that are not cut off -/

/-- A session in which nothing was cut off and nothing was swept: its cache covers what it knows. -/
structure Unswept (s₀ s : Session) : Prop where
  exact : s₀.Exact s
  covering : s₀.inference.Covering s₀.env.record? s.cache
  cuts : s.cuts = 0
  sweeps : s.cache.counters.sweeps = 0

/-- As long as there is no sweep, a query is not cut off if its nodes are not cut off in a new
session. -/
theorem Unswept.answer {q : Query} (hs : s₀.Unswept s) (h : New settings catalog p s₀)
    (hcold : ∀ n ∈ q.nodes, (s₀.afterCold n).Clean)
    (hsweeps : (s.answer q).2.cache.counters.sweeps = 0) : s₀.Unswept (s.answer q).2 := by
  have hi := hs.exact.inference
  have hasked := (s.asked_answer q).inference
  have hsafe : ∀ n ∈ q.nodes, ∀ p s', p.active = [] →
      (s.inference.typeTask s.inference.limit.limit n p).Safe
        (s₀.inference.covering s₀.env.record? 0 0) (fun _ _ => True) s' := by
    rw [hi]
    intro n hn p s' hp
    refine (Inference.follows_typeTask _ n p s' (.ofCache s₀.cache) h.exact.cache ?_ hp
      (h.uncut (hcold n hn))).imp fun _ _ _ _ => trivial
    intro m x hx
    simp [Engine.ofCache, h.pristine.served] at hx
  have hinv : (s₀.inference.covering s₀.env.record? 0 0).inv { cache := s.cache } :=
    ⟨⟨rfl, hs.exact.cache⟩, hs.sweeps, hs.covering⟩
  obtain ⟨left, hleft, hlost | hrun⟩ := answer_safe hinv hsafe
  · rw [hleft] at hsweeps
    exact absurd hsweeps (Nat.ne_of_gt hlost)
  · obtain ⟨⟨hcuts, hexact⟩, hsweeps, hcovering⟩ := hrun.inv
    refine ⟨⟨hasked.trans hi, ?_⟩, ?_, ?_, ?_⟩ <;> rw [hleft]
    · exact hexact
    · exact hcovering
    · rw [cuts_absorb, hs.cuts, hcuts]
    · exact hsweeps

theorem Unswept.answers {qs : List Query} (hs : s₀.Unswept s) (h : New settings catalog p s₀)
    (hcold : ∀ q ∈ qs, ∀ n ∈ q.nodes, (s₀.afterCold n).Clean)
    (hsweeps : (s.answers qs).2.cache.counters.sweeps = 0) : s₀.Unswept (s.answers qs).2 := by
  induction qs generalizing s with
  | nil => exact hs
  | cons q qs ih =>
    obtain ⟨hq, hqs⟩ := List.forall_mem_cons.1 hcold
    have hle := ((s.answer q).2.asked_answers qs).cache.sweeps_le
    change ((s.answer q).2.answers qs).2.cache.counters.sweeps = 0 at hsweeps
    exact ih (hs.answer h hq (by omega)) hqs hsweeps

/-- A query is not cut off if its nodes have derivations within the bound. -/
theorem Exact.answer_of_derive? {q : Query} (hs : s₀.Exact s)
    (hderive : ∀ n ∈ q.nodes,
      (s₀.env.derive? s₀.env.record? s₀.settings.depthLimit.limit n).isSome) :
    s₀.Exact (s.answer q).2 ∧ (s.answer q).2.cuts = s.cuts := by
  have hi := hs.inference
  have hasked := (s.asked_answer q).inference
  have hsafe : ∀ n ∈ q.nodes, ∀ p s', p.active = [] →
      (s.inference.typeTask s.inference.limit.limit n p).Safe
        (s₀.inference.uncut s₀.env.record? 0) (fun _ _ => True) s' := by
    rw [hi]
    intro n hn p s' hp
    obtain ⟨r, hr⟩ := Option.isSome_iff_exists.1 (hderive n hn)
    exact Inference.uncut_typeTask (Nat.le_refl _) (by simp [hp]) hr s'
  have hinv : (s₀.inference.uncut s₀.env.record? 0).inv { cache := s.cache } := ⟨rfl, hs.cache⟩
  obtain ⟨left, hleft, hlost | hrun⟩ := answer_safe hinv hsafe
  · exact hlost.elim
  · obtain ⟨hcuts, hexact⟩ := hrun.inv
    refine ⟨⟨hasked.trans hi, ?_⟩, ?_⟩ <;> rw [hleft]
    · exact hexact
    · rw [cuts_absorb, hcuts, Nat.add_zero]

theorem Exact.cuts_answers {qs : List Query} (hs : s₀.Exact s)
    (hderive : ∀ q ∈ qs, ∀ n ∈ q.nodes,
      (s₀.env.derive? s₀.env.record? s₀.settings.depthLimit.limit n).isSome) :
    (s.answers qs).2.cuts = s.cuts := by
  induction qs generalizing s with
  | nil => rfl
  | cons q qs ih =>
    obtain ⟨hq, hqs⟩ := List.forall_mem_cons.1 hderive
    obtain ⟨hs, hcuts⟩ := hs.answer_of_derive? hq
    exact (ih hs hqs).trans hcuts

/-- What keeps a sequence of queries from being cut off: it is not by itself, or there is no sweep,
or all of its nodes have derivations within the bound on the depth. -/
def Undisturbed (s₀ : Session) (qs : List Query) : Prop :=
  (s₀.answers qs).2.Clean ∨ (s₀.answers qs).2.cache.counters.sweeps = 0 ∨
    ∀ q ∈ qs, ∀ n ∈ q.nodes,
      (s₀.env.derive? s₀.env.record? s₀.settings.depthLimit.limit n).isSome

theorem New.clean_answers (h : New settings catalog p s₀) {qs : List Query}
    (hcold : ∀ q ∈ qs, ∀ n ∈ q.nodes, (s₀.afterCold n).Clean) (hqs : s₀.Undisturbed qs) :
    (s₀.answers qs).2.Clean := by
  rcases hqs with hclean | hsweeps | hderive
  · exact hclean
  · have hle := (s₀.asked_answers qs).cache.sweeps_le
    have hstart : s₀.Unswept s₀ := by
      refine ⟨h.exact, fun hx => ?_, h.cuts, by omega⟩
      simp [h.pristine.served] at hx
    exact clean_iff.2 (hstart.answers h hcold hsweeps).cuts
  · exact clean_iff.2 ((h.exact.cuts_answers hderive).trans h.cuts)

/-! ## Transparency -/

theorem answers_concat (s : Session) (qs : List Query) (q : Query) :
    (s.answers (qs ++ [q])).2 = ((s.answers qs).2.answer q).2 := by
  induction qs generalizing s with
  | nil => rfl
  | cons q' qs ih => exact ih (s.answer q').2

/-- On fixed trees, let each node of some queries have a cold inference that is not cut off. If the
queries are undisturbed, then in whatever order and grouping they are made, and whatever the cache
drops in between, nothing is cut off and each node gets its cold answer, in the order of the nodes.
What is cached for a node comes with the files of the cold run, and it is cached after its own
query if it is after the cold one. -/
theorem answers_eq_cold (settings : Settings) (catalog : Catalog) {trees : List Tree}
    (hfiles : (trees.map (·.file)).Nodup) {qs : List Query}
    (hcold : ∀ q ∈ qs, ∀ n ∈ q.nodes, ((ofTrees settings catalog trees).afterCold n).Clean)
    (hqs : (ofTrees settings catalog trees).Undisturbed qs) :
    ((ofTrees settings catalog trees).answers qs).2.Clean ∧
      ((ofTrees settings catalog trees).answers qs).1 =
        qs.map (fun q => q.nodes.map (ofTrees settings catalog trees).cold?) ∧
      (∀ q ∈ qs, ∀ n ∈ q.nodes, ∀ x,
        ((ofTrees settings catalog trees).answers qs).2.cache.served? n = some x →
          ((ofTrees settings catalog trees).afterCold n).cache.served? n = some x) ∧
      ∀ before n, qs = before ++ [.one n] →
        ((ofTrees settings catalog trees).answers qs).2.cache.served? n =
          ((ofTrees settings catalog trees).afterCold n).cache.served? n := by
  have h := new_ofTrees settings catalog hfiles
  generalize ofTrees settings catalog trees = s₀ at h hcold hqs ⊢
  have huncut : ∀ q ∈ qs, ∀ n ∈ q.nodes, (s₀.infer n).2.cuts = s₀.cuts :=
    fun q hq n hn => h.cuts_infer (hcold q hq n hn)
  have hclean := h.clean_answers hcold hqs
  obtain ⟨hexact, hanswers⟩ := h.exact.answers qs ((clean_iff.1 hclean).trans h.cuts.symm)
  refine ⟨hclean, ?_, ?_, ?_⟩
  · refine eq_map_of_forall₂ hanswers fun q hq ts hts => eq_map_of_forall₂ hts fun n hn t ht => ?_
    obtain ⟨F, u, hu, -⟩ := ht
    obtain ⟨-, v, hv⟩ := h.exact.derives (huncut q hq n hn)
    exact (hu.unique hv).1
  · intro q hq n hn x hx
    obtain ⟨hafter, v, hv⟩ := h.exact.derives (huncut q hq n hn)
    obtain ⟨u, hu, -⟩ := hexact.cache.served hx
    obtain ⟨y, hy⟩ := h.exact.serves_infer (huncut q hq n hn) (hv.unique hu).1
      (hexact.cache.known hx)
    rw [Inference.Exact.served_unique hexact.cache hafter.cache hx hy]
    exact hy
  · rintro before n rfl
    rw [answers_concat]
    have hle := s₀.cuts_le_answers before
    have hlast := (s₀.answers before).2.cuts_le_answer (.one n)
    rw [clean_iff, answers_concat] at hclean
    rw [h.cuts] at hle
    obtain ⟨hbefore, -⟩ := h.exact.answers before (by rw [h.cuts]; omega)
    refine Exact.served_infer hbefore h.exact ?_
      (huncut (.one n) (by simp) n (by simp [Query.nodes]))
    change ((s₀.answers before).2.answer (.one n)).2.cuts = _
    omega

/-- The sum of two chains of moves from one literal, and a literal beside it. -/
def movesTree : Tree := Build.tree 0 do
  let literal ← Build.node (.literal "1u8")
  let shared ← Build.node (.unary .move literal)
  let left ← Build.node (.unary .move shared)
  let copy ← Build.node (.unary .move shared)
  let right ← Build.node (.unary .move copy)
  let _sum ← Build.node (.binary .add left right)
  Build.node (.literal "true")

def flagTree : Tree := Build.tree 1 (Build.node (.literal "true"))

/-- A session on both trees with room for two entries. -/
abbrev cramped (maxDepth : Nat) : Session :=
  ofTrees { cache := ⟨2, 50⟩, maxDepth } .empty [movesTree, flagTree]

/-- The engine of the second file does all its work when that of the first has typed the left
chain. -/
def flagBetween : List Nat := List.replicate 15 0 ++ List.replicate 4 1

/-- The queries of this list sweep what the earlier ones kept. -/
def movesQueries : List Query :=
  [.one ⟨0, 2⟩, .one ⟨0, 6⟩, .batch [⟨0, 5⟩, ⟨1, 0⟩] flagBetween, .one ⟨0, 5⟩]

/-- The entry of the second file takes the place of the shared move in the batch, so that the batch
computes more than it does file by file. -/
theorem answers_eq_cold_swept :
    ((cramped 128).inferBatch [⟨0, 5⟩, ⟨1, 0⟩]).2.counters.computed <
      ((cramped 128).inferBatch [⟨0, 5⟩, ⟨1, 0⟩] flagBetween).2.counters.computed ∧
    0 < ((cramped 128).answers movesQueries).2.cache.counters.sweeps ∧
    ((cramped 128).answers movesQueries).1 =
      [[some (.prim .u8)], [some (.prim .bool)], [some (.prim .u8), some (.prim .bool)],
        [some (.prim .u8)]] := by
  refine ⟨by decide +kernel, by decide +kernel, ?_⟩
  have hcold : ∀ n ∈ [⟨0, 2⟩, ⟨0, 6⟩, ⟨0, 5⟩, ⟨1, 0⟩], ((cramped 128).afterCold n).Clean := by
    simp only [List.forall_mem_cons]
    exact ⟨clean_iff.2 (by decide +kernel), clean_iff.2 (by decide +kernel),
      clean_iff.2 (by decide +kernel), clean_iff.2 (by decide +kernel), by simp⟩
  obtain ⟨-, hanswers, -⟩ := @answers_eq_cold { cache := ⟨2, 50⟩, maxDepth := 128 } .empty
    [movesTree, flagTree] (by decide) movesQueries (by simp_all [movesQueries, Query.nodes])
    (.inl (clean_iff.2 (by decide +kernel)))
  rw [hanswers]
  decide +kernel

/-- A sweep can bring a cut-off. At a bound of four the sum is in reach of a new session, since the
left chain leaves the shared move in the cache for the right one. Once the left chain is known and
the shared move is swept, the right chain has to go down to the literal and is cut off. So it may
happen that a node is known no more when it is asked for again, or that a batch does not know it if
the engine of another file comes in between. -/
theorem swept_query_cut_off :
    (∀ n ∈ ([⟨0, 2⟩, ⟨0, 6⟩, ⟨0, 5⟩, ⟨1, 0⟩] : List NodeId), ((cramped 4).afterCold n).Clean) ∧
    (cramped 4).cold? ⟨0, 5⟩ = some (.prim .u8) ∧
    ((cramped 4).answers [.one ⟨0, 2⟩, .one ⟨0, 6⟩, .one ⟨0, 5⟩]).1 =
      [[some (.prim .u8)], [some (.prim .bool)], [some .unknown]] ∧
    ((cramped 4).answers [.one ⟨0, 5⟩, .one ⟨0, 2⟩, .one ⟨0, 6⟩, .one ⟨0, 5⟩]).1 =
      [[some (.prim .u8)], [some (.prim .u8)], [some (.prim .bool)], [some .unknown]] ∧
    ((cramped 4).answers [.batch [⟨0, 5⟩, ⟨1, 0⟩]]).1 =
      [[some (.prim .u8), some (.prim .bool)]] ∧
    ((cramped 4).answers [.batch [⟨0, 5⟩, ⟨1, 0⟩] flagBetween]).1 =
      [[some .unknown, some (.prim .bool)]] := by
  refine ⟨?_, by decide +kernel, by decide +kernel, by decide +kernel, by decide +kernel,
    by decide +kernel⟩
  simp only [List.forall_mem_cons]
  exact ⟨clean_iff.2 (by decide +kernel), clean_iff.2 (by decide +kernel),
    clean_iff.2 (by decide +kernel), clean_iff.2 (by decide +kernel), by simp⟩

end MoveTyping.Session
