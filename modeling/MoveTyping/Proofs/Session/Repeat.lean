import MoveTyping.Tree.Build
import MoveTyping.Proofs.Infer.Repeat
import MoveTyping.Proofs.Session.Cycles
import MoveTyping.Proofs.Session.Reset

/-!
# Queries made twice

Whether a query gives the same answer when it is made again at once. It does if the first answer has
no unknown parts, for then it is kept; and it does if the first query ran to its end undisturbed,
with nothing cut off and nothing swept. What a disturbed query leaves in the cache may carry the
second one further than the first, or less far.

## Main definitions

* `Session.twice` — the two answers.
-/

namespace MoveTyping.Session

variable {s : Session} {n : NodeId}

/-- The answers to a query that is made twice. -/
def twice (s : Session) (n : NodeId) : Option Ty × Option Ty :=
  ((s.infer n).1, ((s.infer n).2.infer n).1)

/-- What a query leaves in the cache. -/
theorem cache_infer (s : Session) (n : NodeId) :
    (s.infer n).2.cache =
      (s.inference.inferWithin s.settings.depthLimit.limit n (.ofCache s.cache)).2.cache := by
  rw [infer_eq]
  rfl

/-- The second of two queries is asked by the same inference over what the first has left. -/
theorem infer_infer (s : Session) (n : NodeId) :
    ((s.infer n).2.infer n).1 = (s.inference.inferWithin s.settings.depthLimit.limit n
      (.ofCache (s.infer n).2.cache)).1 := by
  have hasked : s.Asked (s.infer n).2 := s.asked_perform (.typeOf? n)
  rw [(s.infer n).2.infer_eq n, hasked.inference, hasked.settings]

/-- A known answer is kept. -/
theorem infer_infer_of_known (hc : s.cache.WellTimed) {ty : Ty} (hty : (s.infer n).1 = some ty)
    (hknown : ty.hasUnknown = false) : ((s.infer n).2.infer n).1 = some ty := by
  rw [infer_eq] at hty
  obtain ⟨hn, ⟨depth, hdepth⟩, x, hx, rfl⟩ := Inference.serves_of_known hc rfl hty hknown
  rw [← cache_infer] at hx
  have hactive : n ∉ (Engine.ofCache (s.infer n).2.cache).active := List.not_mem_nil
  rw [infer_infer, hdepth, Inference.inferWithin_hit hn hactive hx]

/-- An undisturbed query gives its answer again. -/
theorem infer_infer_of_quiet (hc : s.cache.WellTimed) (hcuts : (s.infer n).2.cuts = s.cuts)
    (hsweeps : (s.infer n).2.cache.counters.sweeps = s.cache.counters.sweeps) :
    ((s.infer n).2.infer n).1 = (s.infer n).1 := by
  have hgrown : s.inference.Grown s.cache s.cache := .refl hc rfl
  have hquiet : (Engine.ofCache s.cache).Quiet
      (s.inference.inferWithin s.settings.depthLimit.limit n (.ofCache s.cache)).2 := by
    rw [cache_infer] at hsweeps
    rw [cuts_infer, Nat.add_eq_left] at hcuts
    exact ⟨hcuts, hsweeps⟩
  have hafter := (Inference.inferWithin_grown _ n _ hgrown hquiet).1
  rw [infer_infer, cache_infer, infer_eq]
  exact (Inference.inferWithin_echoes _ n (.ofCache s.cache) (.ofCache _)
    ⟨hgrown, hafter, rfl, hquiet, fun _ hx => hx⟩).result

/-- After any history, a query that is made again gives the same answer if the first answer has no
unknown parts, or if nothing was cut off and nothing was swept on the way to it. -/
theorem twice_eq (settings : Settings) (catalog : Catalog) (past : List Command) (n : NodeId)
    {s : Session} (hs : s = ((start settings catalog).executeAll past).2)
    (h : (∃ ty, (s.infer n).1 = some ty ∧ ty.hasUnknown = false) ∨
      ((s.infer n).2.cuts = s.cuts ∧
        (s.infer n).2.cache.counters.sweeps = s.cache.counters.sweeps)) :
    ((s.infer n).2.infer n).1 = (s.infer n).1 := by
  have hc : s.cache.WellTimed := by
    rw [hs]
    exact ((twin_start settings catalog).executeAll past).2.cache.left.tidy.timed
  obtain ⟨ty, hty, hknown⟩ | ⟨hcuts, hsweeps⟩ := h
  · exact (infer_infer_of_known hc hty hknown).trans hty.symm
  · exact infer_infer_of_quiet hc hcuts hsweeps

/-- The sum of a chain of three moves and its first move. -/
def chainTree : Tree := Build.tree 0 do
  let literal ← Build.node (.literal "1u8")
  let first ← Build.node (.unary .move literal)
  let second ← Build.node (.unary .move first)
  let third ← Build.node (.unary .move second)
  Build.node (.binary .add third first)

/-- A tuple of a name that is not declared and of three moves. -/
def looseTree : Tree := Build.tree 0 do
  let literal ← Build.node (.literal "1u8")
  let loose ← Build.path (.simple "nowhere") []
  let first ← Build.node (.unary .move literal)
  let second ← Build.node (.unary .move first)
  let other ← Build.node (.unary .move literal)
  Build.tuple [loose, first, other, second]

/-- The chain at a bound of four, after a query that was cut off. -/
def chainSession : Session :=
  ((start { maxDepth := 4 } .empty).executeAll [.set chainTree, .ask (.types (.one ⟨0, 4⟩))]).2

def looseSession : Session := ((start {} .empty).executeAll [.set looseTree]).2

theorem twice_eq_chain_and_loose :
    ((chainSession.infer ⟨0, 4⟩).1 = some (.prim .u8) ∧
      ((chainSession.infer ⟨0, 4⟩).2.infer ⟨0, 4⟩).1 = (chainSession.infer ⟨0, 4⟩).1) ∧
    ((looseSession.infer ⟨0, 5⟩).1 =
        some (.tuple [.unknown, .prim .u8, .prim .u8, .prim .u8]) ∧
      (looseSession.infer ⟨0, 5⟩).2.cuts = looseSession.cuts ∧
      (looseSession.infer ⟨0, 5⟩).2.cache.counters.sweeps = looseSession.cache.counters.sweeps ∧
      ((looseSession.infer ⟨0, 5⟩).2.infer ⟨0, 5⟩).1 = (looseSession.infer ⟨0, 5⟩).1) := by
  have hchain : (chainSession.infer ⟨0, 4⟩).1 = some (.prim .u8) := by decide +kernel
  have hcuts : (looseSession.infer ⟨0, 5⟩).2.cuts = looseSession.cuts := by decide +kernel
  have hsweeps : (looseSession.infer ⟨0, 5⟩).2.cache.counters.sweeps =
      looseSession.cache.counters.sweeps := by decide +kernel
  refine ⟨⟨hchain, ?_⟩, by decide +kernel, hcuts, hsweeps, ?_⟩
  · exact twice_eq { maxDepth := 4 } .empty [.set chainTree, .ask (.types (.one ⟨0, 4⟩))] ⟨0, 4⟩
      rfl (.inl ⟨.prim .u8, hchain, rfl⟩)
  · exact twice_eq {} .empty [.set looseTree] ⟨0, 5⟩ rfl (.inr ⟨hcuts, hsweeps⟩)

/-- `module 0x5::m` with `fun pick<T>(x: T, y: T): T` and the constants `W = pick(Z, 1u8)`,
`Z = (W, 1u8)` and `P = (W, Z)`. -/
def circleTree : Tree := Build.tree 0 do
  let param ← Build.typeParam "T" [] false
  let x ← Build.node (.param "x" (some (← Build.typePath (.simple "T") [])))
  let y ← Build.node (.param "y" (some (← Build.typePath (.simple "T") [])))
  let ret ← Build.typePath (.simple "T") []
  let pick ← Build.function "pick" [param] [x, y] (some ret) none
  let call ← callPick (← Build.path (.simple "Z") []) (← Build.node (.literal "1u8"))
  let w ← Build.node (.const "W" none (some call))
  let pair ← Build.tuple [← Build.path (.simple "W") [], ← Build.node (.literal "1u8")]
  let z ← Build.node (.const "Z" none (some pair))
  let both ← Build.tuple [← Build.path (.simple "W") [], ← Build.path (.simple "Z") []]
  let p ← Build.node (.const "P" none (some both))
  Build.module "0x5" "m" [pick, w, z, p]

/-- Answers that change. At a bound of four the first move is too deep below the third one; the sum
asks for it again, and leaves it in the cache for the next query. In a circle that is cut at one
constant, the other may come out known and is kept. And where nothing is cut off, a sweep may take
the first move away, so that the second one is out of reach when it is asked for again. -/
theorem twice_ne :
    (ofTrees { maxDepth := 4 } .empty [chainTree]).twice ⟨0, 4⟩ =
      (some .unknown, some (.prim .u8)) ∧
    ((ofTrees {} .empty [circleTree]).infer ⟨0, 18⟩).2.counters.depthCutoffs = 0 ∧
    (ofTrees {} .empty [circleTree]).twice ⟨0, 18⟩ =
      (some (.tuple [.tuple [.unknown, .prim .u8], .tuple [.prim .u8, .prim .u8]]),
        some (.tuple [.prim .u8, .tuple [.prim .u8, .prim .u8]])) ∧
    ((ofTrees { cache := ⟨3, 50⟩, maxDepth := 3 } .empty [looseTree]).infer ⟨0, 5⟩).2.cuts = 0 ∧
    (ofTrees { cache := ⟨3, 50⟩, maxDepth := 3 } .empty [looseTree]).twice ⟨0, 5⟩ =
      (some (.tuple [.unknown, .prim .u8, .prim .u8, .prim .u8]),
        some (.tuple [.unknown, .prim .u8, .prim .u8, .unknown])) := by
  refine ⟨?_, ?_, ?_, ?_, ?_⟩ <;> decide +kernel

end MoveTyping.Session
