import MoveTyping.Tree.Build
import MoveTyping.Proofs.Infer.Grounded
import MoveTyping.Proofs.Session.Memo

/-!
# Queries with cycles

Declarations may depend on each other in a circle. Which of them is asked for first then decides
where the circle is cut, and what is computed from the cut is kept if it has no unknown part: a
generic call, for one, is content with the arguments that are known. So for the nodes of a circle
the order of the queries matters. The other nodes are not touched by that, even when they are asked
for from within the circle.

## Main definitions

* `Session.Blank` — a session that has derived nothing yet.
-/

namespace MoveTyping.Session

variable {s s₀ : Session} {n : NodeId}

/-- Nothing is derived. Records may be in the index. -/
structure Blank (s : Session) : Prop where
  timed : s.cache.WellTimed
  served : ∀ n, s.cache.served? n = none

theorem Pristine.blank (h : s.Pristine) : s.Blank := ⟨h.timed, h.served⟩

theorem Blank.consistent (h : s.Blank) (T : s.inference.env.Typing s.known?)
    (hdepends : ∀ f n, T.depends f n) : s.Consistent s.inference T :=
  ⟨rfl, .of_unserved h.timed rfl h.served (fun _ => hdepends _ _) fun _ => rfl⟩

/-- A session after some queries on a blank one, in which the nodes with a derivation have the
derived type. -/
abbrev Grounded (s₀ s : Session) : Prop :=
  s.Consistent s₀.inference (s₀.inference.env.groundedTyping s₀.known?)

theorem depthCutoffs_afterCold (s : Session) (n : NodeId) :
    (s.afterCold n).counters.depthCutoffs = s.counters.depthCutoffs +
      (s.inference.inferWithin s.settings.depthLimit.limit n
        (.ofCache s.cache)).2.counters.depthCutoffs := by
  rw [afterCold, infer_eq]
  rfl

theorem depthCutoffs_le_afterCold (s : Session) (n : NodeId) :
    s.counters.depthCutoffs ≤ (s.afterCold n).counters.depthCutoffs :=
  (s.depthCutoffs_afterCold n).symm ▸ Nat.le_add_right ..

/-- One query: the answer is the derived type if there is one, whatever cycles it meets. -/
theorem Grounded.infer (h : s₀.Grounded s) (n : NodeId)
    (hdepth : (s.afterCold n).counters.depthCutoffs = s.counters.depthCutoffs) :
    s₀.Grounded (s.afterCold n) ∧ s₀.env.Undisputed s₀.known? n (s.cold? n) := by
  have hasked := s.asked_perform (.typeOf? n)
  obtain ⟨hi, hc⟩ := h
  rw [← hi] at hc
  have hrun : (s.inference.inferWithin s.settings.depthLimit.limit n
      (.ofCache s.cache)).2.counters.depthCutoffs = 0 := by
    have hcount := s.depthCutoffs_afterCold n
    omega
  obtain ⟨hc, ht⟩ := Inference.inferWithin_grounded _ n (.ofCache s.cache) hc (.nil _) hrun
  have henv : s.inference.env = s₀.inference.env := congrArg Inference.env hi
  refine ⟨⟨hasked.inference.trans hi, ?_⟩, ?_⟩
  · rw [← hi, afterCold, infer_eq]
    exact hc
  · change s₀.inference.env.Undisputed s₀.known? n (s.cold? n)
    rw [← henv, cold?, infer_eq]
    exact ht

theorem depthCutoffs_le_foldl (s : Session) (nodes : List NodeId) :
    s.counters.depthCutoffs ≤ (nodes.foldl afterCold s).counters.depthCutoffs := by
  induction nodes generalizing s with
  | nil => exact Nat.le_refl _
  | cons n nodes ih => exact (s.depthCutoffs_le_afterCold n).trans (ih (s.afterCold n))

theorem Grounded.foldl (h : s₀.Grounded s) {nodes : List NodeId}
    (hdepth : (nodes.foldl afterCold s).counters.depthCutoffs = s.counters.depthCutoffs) :
    s₀.Grounded (nodes.foldl afterCold s) := by
  induction nodes generalizing s with
  | nil => exact h
  | cons n nodes ih =>
    rw [List.foldl_cons] at hdepth ⊢
    have hfirst := s.depthCutoffs_le_afterCold n
    have hrest := (s.afterCold n).depthCutoffs_le_foldl nodes
    exact ih (h.infer n (by omega)).1 (by omega)

/-- A node whose own run on a blank session is not cut off has a derivation. -/
theorem Blank.derives (h : s₀.Blank) (hcold : (s₀.afterCold n).cuts = s₀.cuts) :
    ∃ u, s₀.env.Derives s₀.known? n (s₀.cold? n) u := by
  have hs := h.consistent (s₀.inference.env.coveredTyping s₀.known?) fun _ _ => trivial
  obtain ⟨-, F, u, hu, -⟩ := hs.infer n hcold
  exact ⟨u, hu⟩

/-- However the declarations depend on each other and in whatever order the nodes are asked for, a
node whose own run on a blank session is not cut off has the type of that run in the cache, if it
has any, and gets it as the answer whenever it is asked for. No query may be too deep. -/
theorem definitive_of_uncut (h : s₀.Blank) {nodes : List NodeId}
    (hdepth : (nodes.foldl afterCold s₀).counters.depthCutoffs = s₀.counters.depthCutoffs)
    (hcold : (s₀.afterCold n).cuts = s₀.cuts) :
    (∀ x, (nodes.foldl afterCold s₀).cache.served? n = some x → s₀.cold? n = some x.ty) ∧
      ∀ before later, nodes = before ++ n :: later →
        (before.foldl afterCold s₀).cold? n = s₀.cold? n := by
  obtain ⟨u, hu⟩ := h.derives hcold
  have hs₀ : s₀.Grounded s₀ := h.consistent _ fun _ _ => trivial
  constructor
  · intro x hx
    exact (hs₀.foldl hdepth).cache.served hx _ u hu
  · rintro before later rfl
    rw [List.foldl_append, List.foldl_cons] at hdepth
    have hbefore := s₀.depthCutoffs_le_foldl before
    have hnode := (before.foldl afterCold s₀).depthCutoffs_le_afterCold n
    have hlater := ((before.foldl afterCold s₀).afterCold n).depthCutoffs_le_foldl later
    have hs : s₀.Grounded (before.foldl afterCold s₀) := hs₀.foldl (by omega)
    obtain ⟨-, hanswer⟩ := hs.infer n (by omega)
    exact (hanswer _ u hu).symm

/-- `pick(x, y)` -/
def callPick (x y : NodeId) : Build NodeId := do
  Build.call (← Build.path (.simple "pick") []) [x, y]

/-- `module 0x5::m` with `fun pick<T>(x: T, y: T): T` and the constants `A = pick(B, C)`,
`B = pick(A, 1u16)`, `C = 1u8` and `D = move move pick(move move 1u8, 1u16)`. -/
def pickTree : Tree := Build.tree 0 do
  let param ← Build.typeParam "T" [] false
  let x ← Build.node (.param "x" (some (← Build.typePath (.simple "T") [])))
  let y ← Build.node (.param "y" (some (← Build.typePath (.simple "T") [])))
  let ret ← Build.typePath (.simple "T") []
  let pick ← Build.function "pick" [param] [x, y] (some ret) none
  let bc ← callPick (← Build.path (.simple "B") []) (← Build.path (.simple "C") [])
  let a ← Build.node (.const "A" none (some bc))
  let au ← callPick (← Build.path (.simple "A") []) (← Build.node (.literal "1u16"))
  let b ← Build.node (.const "B" none (some au))
  let c ← Build.node (.const "C" none (some (← Build.node (.literal "1u8"))))
  let moved ← Build.node (.unary .move (← Build.node (.literal "1u8")))
  let call ← callPick (← Build.node (.unary .move moved)) (← Build.node (.literal "1u16"))
  let kept ← Build.node (.unary .move (← Build.node (.unary .move call)))
  let d ← Build.node (.const "D" none (some kept))
  Build.module "0x5" "m" [pick, a, b, c, d]

/-- `A` and `B` run into their circle, and `C` is first asked for from within it. -/
theorem definitive_of_uncut_pick :
    ([⟨0, 11⟩, ⟨0, 16⟩, ⟨0, 18⟩].foldl afterCold
      (ofTrees {} .empty [pickTree])).counters.cycles = 1 ∧
    ([⟨0, 11⟩, ⟨0, 16⟩].foldl afterCold (ofTrees {} .empty [pickTree])).cold? ⟨0, 18⟩ =
      some (.prim .u8) := by
  refine ⟨by decide +kernel, ?_⟩
  have hblank := (@new_ofTrees {} .empty [pickTree] (by decide)).pristine.blank
  obtain ⟨-, hanswer⟩ := @definitive_of_uncut _ ⟨0, 18⟩ hblank [⟨0, 11⟩, ⟨0, 16⟩, ⟨0, 18⟩]
    (by decide +kernel) (by decide +kernel)
  rw [hanswer [⟨0, 11⟩, ⟨0, 16⟩] [] rfl]
  decide +kernel

/-- A circle is cut where the first query runs into it, and what follows from the cut is kept: `B`
has another type after `A` was asked for. So has the call in `D` at a bound of four, if it is asked
for through `D`'s moves and its argument is out of reach. -/
theorem kept_after_cut :
    (ofTrees {} .empty [pickTree]).cold? ⟨0, 16⟩ = some (.prim .u8) ∧
    ((ofTrees {} .empty [pickTree]).afterCold ⟨0, 11⟩).cold? ⟨0, 16⟩ = some (.prim .u16) ∧
    ((ofTrees {} .empty [pickTree]).afterCold ⟨0, 11⟩).cache.served? ⟨0, 16⟩ =
      some ⟨.prim .u16, []⟩ ∧
    ((ofTrees {} .empty [pickTree]).afterCold ⟨0, 11⟩).counters.depthCutoffs = 0 ∧
    (ofTrees { maxDepth := 4 } .empty [pickTree]).cold? ⟨0, 24⟩ = some (.prim .u8) ∧
    ((ofTrees { maxDepth := 4 } .empty [pickTree]).afterCold ⟨0, 26⟩).cache.served? ⟨0, 24⟩ =
      some ⟨.prim .u16, []⟩ ∧
    ((ofTrees { maxDepth := 4 } .empty [pickTree]).afterCold ⟨0, 26⟩).counters.cycles = 0 := by
  exact ⟨by decide +kernel, by decide +kernel, by decide +kernel, by decide +kernel,
    by decide +kernel, by decide +kernel, by decide +kernel⟩

end MoveTyping.Session
