import MoveTyping.Tree.Build
import MoveTyping.Proofs.Infer.Run
import MoveTyping.Proofs.Tree.BottomUp

/-!
# The engine step by step

The engine as a machine with a stack. A round of the machine looks at what the innermost computation
does next: it answers a question from the cache, cuts it off, puts the computation aside and begins
with the rule of the node that was asked for, or gives the result of a computation to the one that
has asked for it. The machine counts nothing down. It looks for the node among the nodes under way
and compares their number with the limit, before it enters another one.

The questions follow the names of a program and not its trees, so nothing in the program bounds
them. All the same the machine comes to an end after finitely many rounds, with the answer of
`Inference.infer`: a computation is entered at most at the depth that the limit allows, and each
rule asks finitely many questions.

## Main definitions

* `Machine` — the states, `Machine.Pending` — a computation that waits for an answer.
* `Inference.round` — a round of the machine.

## Main results

* `Inference.reaches_performWith` — the machine runs a rule as the engine does.
* `Inference.stacked_of_reaches` — which nodes are under way at every moment.
* `Inference.infer_ends` — inference ends, and the nodes under way are never too many.
-/

namespace MoveTyping

/-- A computation that waits for the type of a node. -/
structure Machine.Pending where
  /-- The node that it has asked for. -/
  node : NodeId
  /-- The files that it has read. -/
  files : List FileId
  /-- What it does with the answer. -/
  next : Option Ty → Rule (Option Ty)

/-- A state of the machine: what the innermost computation still has to do, the computations that
wait, innermost first, and the engine. -/
structure Machine where
  rule : Rule (Option Ty)
  pending : List Machine.Pending
  engine : Engine

/-- The machine at the beginning of a question. -/
def Machine.start (node : NodeId) (e : Engine) : Machine := ⟨.typeOf? node, [], e⟩

namespace Inference

variable {i : Inference} {e : Engine} {n node : NodeId} {pending : List Machine.Pending}
  {next : Option Ty → Rule (Option Ty)} {s s' : Machine}

/-- What the machine does about a question. -/
def question (i : Inference) (node : NodeId) (next : Option Ty → Rule (Option Ty))
    (pending : List Machine.Pending) (e : Engine) : Machine :=
  if i.env.program.contains node = false then ⟨next none, pending, e.queried⟩
  else if node ∈ e.active then ⟨next (some .unknown), pending, e.cycled⟩
  else if i.limit.allows e.active.length = false then
    ⟨next (some .unknown), pending, e.tooDeep⟩
  else match e.cache.served? node with
    | some x =>
      ⟨next (some x.ty), pending, ((e.consulted node).note node.file).noteAll x.deps⟩
    | none => ⟨i.env.rule node, ⟨node, e.files, next⟩ :: pending, (e.consulted node).enter node⟩

/-- The engine after the computation that an answer was waited for. -/
def conclude (i : Inference) (p : Machine.Pending) (t : Option Ty) (e : Engine) : Engine :=
  ((e.concluded p.files (e.cache.keep p.node t i.generation e.files)).note p.node.file).noteAll
    e.files

/-- A round of the machine. It ends when the outermost computation has its result. -/
def round (i : Inference) : Loop Machine (Option Ty × Engine)
  | ⟨.done t, [], e⟩ => .inl (t, e)
  | ⟨.done t, p :: pending, e⟩ => .inr ⟨p.next t, pending, i.conclude p t e⟩
  | ⟨.ask node next, pending, e⟩ => .inr (i.question node next pending e)
  | ⟨.askRecord name next, pending, e⟩ =>
    .inr ⟨next (i.ask name e).1, pending, (i.ask name e).2⟩
  | ⟨.read file next, pending, e⟩ => .inr ⟨next, pending, e.note file⟩

/-! ## Results -/

/-- A question is answered in finitely many rounds, if the rules at less depth are run. -/
theorem reaches_question {depth : Nat}
    (hrule : ∀ d < depth, ∀ rule pending e, d = i.depthLeft e →
      i.round.Reaches ⟨rule, pending, e⟩
        ⟨.done (i.performWith (i.inferWithin d) rule e).1, pending,
          (i.performWith (i.inferWithin d) rule e).2⟩)
    (hdepth : depth = i.depthLeft e) :
    i.round.Reaches ⟨.ask node next, pending, e⟩
      ⟨next (i.inferWithin depth node e).1, pending, (i.inferWithin depth node e).2⟩ := by
  have hround : i.round ⟨.ask node next, pending, e⟩ = .inr (i.question node next pending e) := rfl
  refine .next hround ?_
  unfold question
  cases h : i.env.program.contains node with
  | false =>
    rw [inferWithin_outside h, if_pos rfl]
    exact .refl ..
  | true =>
    rw [if_neg (by simp)]
    by_cases ha : node ∈ e.active
    · rw [inferWithin_active h ha, if_pos ha]
      exact .refl ..
    rw [if_neg ha]
    have hallows : i.limit.allows e.active.length = true ↔ 0 < depth := by
      rw [hdepth, depthLeft, DepthLimit.allows, decide_eq_true_iff]
      omega
    cases depth with
    | zero =>
      rw [inferWithin_zero h ha, if_pos (by simpa using hallows)]
      exact .refl ..
    | succ depth =>
      rw [if_neg (by simpa using hallows)]
      cases hx : e.cache.served? node with
      | some x =>
        rw [inferWithin_hit h ha hx]
        exact .refl ..
      | none =>
        rw [inferWithin_miss h ha hx]
        -- the node is entered, so one level less is left to its rule
        have hleft : depth = i.depthLeft ((e.consulted node).enter node) := by
          simp only [depthLeft, Engine.active_enter, Engine.active_consulted,
            List.length_cons] at hdepth ⊢
          omega
        have hbody := hrule depth (Nat.lt_succ_self depth) (i.env.rule node)
          (⟨node, e.files, next⟩ :: pending) _ hleft
        exact hbody.trans (.next rfl (.refl ..))

/-- The machine comes to the result of a rule, in the state that the engine is left in. -/
theorem reaches_performWith (i : Inference) (depth : Nat) (rule : Rule (Option Ty))
    (pending : List Machine.Pending) (e : Engine) (hdepth : depth = i.depthLeft e) :
    i.round.Reaches ⟨rule, pending, e⟩
      ⟨.done (i.performWith (i.inferWithin depth) rule e).1, pending,
        (i.performWith (i.inferWithin depth) rule e).2⟩ := by
  -- the depth bounds the nested computations, and within one of them the rule gets shorter
  induction depth using Nat.strongRecOn generalizing rule pending e with
  | _ depth hrule =>
    induction rule generalizing e with
    | done t => exact .refl ..
    | ask node next ih =>
      refine (reaches_question hrule hdepth).trans (ih _ _ ?_)
      rwa [depthLeft, (i.frame_inferWithin depth node e).active]
    | askRecord name next ih => exact .next rfl (ih _ _ hdepth)
    | read file next ih => exact .next rfl (ih _ (by simpa [depthLeft] using hdepth))

/-- The machine ends with the answer of the engine. -/
theorem round_ends (i : Inference) (n : NodeId) (e : Engine) :
    i.round.Ends (.start n e) (i.infer n e) := by
  rw [infer_eq_inferWithin]
  exact (i.reaches_performWith (i.depthLeft e) (.typeOf? n) [] e rfl).ends (.stop rfl)

/-! ## Nodes under way -/

/-- The nodes under way are those whose computations wait for an answer to be used, on top of those
that were under way before. They are all different and no more than the limit allows. -/
structure Stacked (i : Inference) (before : List NodeId) (s : Machine) : Prop where
  active : s.engine.active = s.pending.map Machine.Pending.node ++ before
  nodup : s.engine.active.Nodup
  length_le : s.engine.active.length ≤ i.limit.limit

variable {before : List NodeId}

/-- A state with the same nodes under way and the same computations that wait. -/
theorem Stacked.of_eq (h : i.Stacked before s) (hactive : s'.engine.active = s.engine.active)
    (hpending : s'.pending = s.pending) : i.Stacked before s' :=
  ⟨by rw [hactive, hpending, h.active], hactive ▸ h.nodup, hactive ▸ h.length_le⟩

theorem Stacked.question (h : i.Stacked before ⟨.ask node next, pending, e⟩) :
    i.Stacked before (i.question node next pending e) := by
  unfold Inference.question
  split
  · exact h.of_eq rfl rfl
  split
  · exact h.of_eq rfl rfl
  next ha =>
    split
    · exact h.of_eq rfl rfl
    next hallows =>
      split
      · exact h.of_eq (by simp) rfl
      · have hlt : e.active.length < i.limit.limit := by
          simpa [DepthLimit.allows] using hallows
        exact ⟨congrArg (node :: ·) h.active, List.nodup_cons.2 ⟨ha, h.nodup⟩, hlt⟩

theorem Stacked.round (h : i.Stacked before s) (hround : i.round s = .inr s') :
    i.Stacked before s' := by
  obtain ⟨rule, pending, e⟩ := s
  cases rule with
  | done t =>
    cases pending with
    | nil => cases hround
    | cons p pending =>
      obtain rfl := Sum.inr.inj hround
      -- the node that was asked for is the first one under way, and it is left
      have hactive : e.active = p.node :: (pending.map Machine.Pending.node ++ before) := h.active
      have htail : (i.conclude p t e).active = e.active.tail := by simp [conclude]
      refine ⟨by simp [htail, hactive], ?_, ?_⟩
      · exact htail ▸ h.nodup.sublist (List.tail_sublist _)
      · have hlength : e.active.length ≤ i.limit.limit := h.length_le
        simp only [htail, List.length_tail]
        omega
  | ask node next =>
    obtain rfl := Sum.inr.inj hround
    exact h.question
  | askRecord name next =>
    obtain rfl := Sum.inr.inj hround
    exact h.of_eq rfl rfl
  | read file next =>
    obtain rfl := Sum.inr.inj hround
    exact h.of_eq (by simp) rfl

/-- At every moment of a run the nodes under way are those of the computations that wait. -/
theorem stacked_of_reaches (hnodup : e.active.Nodup) (hlength : e.active.length ≤ i.limit.limit)
    (h : i.round.Reaches (.start n e) s) : i.Stacked e.active s :=
  h.invariant Stacked.round ⟨rfl, hnodup, hlength⟩

/-- Inference is total and bounded. In a program whose trees are built bottom up, for every library,
every bound on the depth, every cache and every node, whatever names refer to each other: the
searches that resolve a name come to an end, and the engine ends after finitely many rounds with the
answer of `infer`. At every moment the nodes under way are those of the computations that wait, in
their order; no node is among them twice, and they are no more than the bound, or than one where the
bound is zero. In the end they are the nodes that were under way before. -/
theorem infer_ends (program : Program) (hprogram : ∀ t ∈ program.trees, t.BottomUp)
    (catalog : Catalog) (generation maxDepth : Nat) (e : Engine) (hnodup : e.active.Nodup)
    (hlength : e.active.length ≤ max 1 maxDepth) (n : NodeId) :
    let i : Inference := ⟨.ofProgram program catalog, generation, .ofMax maxDepth⟩
    i.env.SearchesEnd ∧
      (∃ k, i.round.after k (.start n e) = .inl (i.infer n e)) ∧
      (∀ k s, i.round.after k (.start n e) = .inr s →
        s.engine.active = s.pending.map Machine.Pending.node ++ e.active ∧
          s.engine.active.Nodup ∧ s.engine.active.length ≤ max 1 maxDepth) ∧
      (i.infer n e).2.active = e.active := by
  intro i
  refine ⟨Env.searchesEnd hprogram, i.round_ends n e, fun k s hs => ?_, ?_⟩
  · have hstacked : i.Stacked e.active s := stacked_of_reaches hnodup hlength ⟨k, hs⟩
    exact ⟨hstacked.active, hstacked.nodup, hstacked.length_le⟩
  · rw [infer_eq_inferWithin]
    exact (i.frame_inferWithin (i.depthLeft e) n e).active

/-- `module 0x5::m` with `const A = 0x6::n::B` and `fun f() { let (x, y) = (A, f()); y }`. -/
def circleTree : Tree := Build.tree 0 do
  let a ← Build.node (.const "A" none (some (← Build.path (.full "0x6" "n" "B") [])))
  let call ← Build.call (← Build.path (.simple "f") []) []
  let pair ← Build.tuple [← Build.path (.simple "A") [], call]
  let binding ← Build.letTuple ["x", "y"] none (some pair)
  let body ← Build.block [binding, ← Build.path (.simple "y") []]
  Build.module "0x5" "m" [a, ← Build.function "f" [] [] none (some body)]

/-- `module 0x6::n` with `const B = 0x5::m::A`. -/
def otherCircleTree : Tree := Build.tree 1 do
  let b ← Build.node (.const "B" none (some (← Build.path (.full "0x5" "m" "A") [])))
  Build.module "0x6" "n" [b]

/-- The two files, whose constants refer to each other. -/
def circleProgram : Program := (Program.empty.insert circleTree).insert otherCircleTree

/-- The last statement of `f`, with six nodes under way at a time. -/
theorem infer_ends_circle :
    let i : Inference := ⟨.ofProgram circleProgram .empty, 1, .ofMax 6⟩
    let e : Engine := .ofCache (.ofSettings {})
    (∃ k, i.round.after k (.start ⟨0, 10⟩ e) = .inl (i.infer ⟨0, 10⟩ e)) ∧
      (∀ k s, i.round.after k (.start ⟨0, 10⟩ e) = .inr s →
        s.engine.active.Nodup ∧ s.engine.active.length ≤ 6) ∧
      (i.infer ⟨0, 10⟩ e).1 = some .unit := by
  have hprogram : ∀ t ∈ circleProgram.trees, t.BottomUp := by decide +kernel
  obtain ⟨-, hends, hmoments, -⟩ := infer_ends circleProgram hprogram .empty 1 6
    (.ofCache (.ofSettings {})) .nil (by decide) ⟨0, 10⟩
  refine ⟨hends, fun k s hs => (hmoments k s hs).2, ?_⟩
  decide +kernel

end Inference

end MoveTyping
