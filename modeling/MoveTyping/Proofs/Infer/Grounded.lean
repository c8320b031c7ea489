import MoveTyping.Proofs.Infer.Consistent

/-!
# Runs with cycles

A node that is asked for while it is under way is unknown to whoever asks. What is computed from
that is not a type by the rules, but it may be kept all the same. It does no harm to the nodes that
have a derivation: these never ask for a node that is under way, since the nodes they ask for have
derivations of less height. So however many cycles a run meets, a node with a derivation gets its
type, as long as no question is too deep.

## Main definitions

* `Env.groundedTyping` — nodes with a derivation have the derived type, others have any.
* `Env.Below` — something is needed by every derivation of the nodes under way.
-/

namespace MoveTyping

variable {α β : Type} {n : NodeId}

namespace Env

variable {env : Env} {record : QName → Option Record}

/-- The node has no other type by a derivation. -/
def Undisputed (env : Env) (record : QName → Option Record) (n : NodeId) (t : Option Ty) : Prop :=
  ∀ t' u, env.Derives record n t' u → t' = t

/-- A rule that is evaluated by derivations gets the value that it has when nodes without one are
given any type. -/
theorem eq_of_yields_of_evaluates {rule : Rule α} {a b : α} {F : Finset FileId} {u : Trace}
    (h : rule.Yields (fun n t _ => env.Undisputed record n t) record a F)
    (hb : env.Evaluates record rule b u) : b = a := by
  induction h generalizing u with
  | done a =>
    obtain ⟨k, hk⟩ := hb
    exact (Prod.mk.inj (Option.some.inj hk)).1.symm
  | ask ht _ ih =>
    obtain ⟨t', u, v, hu, hv, -⟩ := evaluates_ask.1 hb
    obtain rfl := ht t' u hu
    exact ih hv
  | askRecord _ ih =>
    obtain ⟨v, hv, -⟩ := evaluates_askRecord.1 hb
    exact ih hv
  | read _ ih =>
    obtain ⟨v, hv, -⟩ := evaluates_read.1 hb
    exact ih hv

/-- Nodes with a derivation have the derived type, and nothing is said about the others. -/
def groundedTyping (env : Env) (record : QName → Option Record) : env.Typing record where
  holds n t _ := env.Undisputed record n t
  depends _ _ := True
  outside h _ _ ht := ht.none_of_not_contains h
  rule h hrule t' u ht := by
    obtain ⟨v, hv, -⟩ := (derives_iff h).1 ht
    exact eq_of_yields_of_evaluates hrule hv
  depends_of_holds _ _ := trivial

/-! ## Nodes under way -/

/-- Every derivation of a node under way needs a value, which it gets at less height. -/
def Below (env : Env) (record : QName → Option Record) (active : List NodeId)
    (value? : Nat → Option β) : Prop :=
  ∀ a ∈ active, ∀ h r, env.derive? record h a = some r → ∃ k < h, ∃ b, value? k = some b

namespace Below

variable {active : List NodeId}

theorem nil (value? : Nat → Option β) : env.Below record [] value? := by
  rintro a ⟨⟩

/-- A node is not needed by its own derivation. -/
theorem notMem (hn : env.Below record active fun k => env.derive? record k n) {h : Nat}
    {r : Option Ty × Trace} (hr : env.derive? record h n = some r) : n ∉ active := by
  intro hmem
  induction h using Nat.strongRecOn generalizing r with
  | _ h ih =>
    obtain ⟨k, hk, r', hr'⟩ := hn n hmem h r hr
    exact ih k hk hr'

theorem ask {node : NodeId} {next : Option Ty → Rule α}
    (h : env.Below record active fun k =>
      (Rule.ask node next).eval? (env.derive? record k) record) :
    env.Below record active fun k => env.derive? record k node := by
  intro a ha j r hr
  obtain ⟨k, hk, ⟨b, w⟩, hb⟩ := h a ha j r hr
  obtain ⟨t, u, v, ht, -, -⟩ := Rule.eval?_ask_eq_some.1 hb
  exact ⟨k, hk, _, ht⟩

/-- The rest of a rule, after a question that was answered by the derivation if there is one. -/
theorem next {node : NodeId} {next : Option Ty → Rule α} {t : Option Ty}
    (h : env.Below record active fun k =>
      (Rule.ask node next).eval? (env.derive? record k) record)
    (ht : env.Undisputed record node t) :
    env.Below record active fun k => (next t).eval? (env.derive? record k) record := by
  intro a ha j r hr
  obtain ⟨k, hk, ⟨b, w⟩, hb⟩ := h a ha j r hr
  obtain ⟨t', u, v, hu, hv, -⟩ := Rule.eval?_ask_eq_some.1 hb
  obtain rfl := ht t' u ⟨k, hu⟩
  exact ⟨k, hk, _, hv⟩

theorem askRecord {name : QName} {next : Option Record → Rule α}
    (h : env.Below record active fun k =>
      (Rule.askRecord name next).eval? (env.derive? record k) record) :
    env.Below record active fun k =>
      (next (record name)).eval? (env.derive? record k) record := by
  intro a ha j r hr
  obtain ⟨k, hk, ⟨b, w⟩, hb⟩ := h a ha j r hr
  obtain ⟨v, hv, -⟩ := Rule.eval?_askRecord_eq_some.1 hb
  exact ⟨k, hk, _, hv⟩

theorem read {file : FileId} {next : Rule α}
    (h : env.Below record active fun k =>
      (Rule.read file next).eval? (env.derive? record k) record) :
    env.Below record active fun k => next.eval? (env.derive? record k) record := by
  intro a ha j r hr
  obtain ⟨k, hk, ⟨b, w⟩, hb⟩ := h a ha j r hr
  obtain ⟨v, hv, -⟩ := Rule.eval?_read_eq_some.1 hb
  exact ⟨k, hk, _, hv⟩

/-- A derivation of a node evaluates its rule at less height. -/
theorem rule (hn : env.program.contains n = true)
    (h : env.Below record active fun k => env.derive? record k n) :
    env.Below record (n :: active) fun k =>
      (env.rule n).eval? (env.derive? record k) record := by
  have hown : ∀ {j r}, env.derive? record j n = some r →
      ∃ k < j, ∃ b, (env.rule n).eval? (env.derive? record k) record = some b := by
    intro j r hr
    obtain _ | j := j
    · simp [derive?_zero hn] at hr
    · obtain ⟨u, hu, -⟩ := (derive?_succ_eq_some hn).1 hr
      exact ⟨j, Nat.lt_succ_self j, _, hu⟩
  intro a ha j r hr
  rcases List.mem_cons.1 ha with rfl | ha
  · exact hown hr
  · obtain ⟨k, hk, r', hr'⟩ := h a ha j r hr
    obtain ⟨k', hk', hb⟩ := hown hr'
    exact ⟨k', hk'.trans hk, hb⟩

end Below

end Env

/-! ## Runs -/

namespace Inference

variable {i : Inference} {e : Engine} {record : QName → Option Record} {depth : Nat}

/-- A cache in which nodes with a derivation have the derived type. -/
abbrev Grounded (i : Inference) (record : QName → Option Record) (c : Cache) : Prop :=
  i.Consistent (i.env.groundedTyping record) c

/-- A rule that the nodes under way need, run with questions that give derived types to nodes with a
derivation. -/
theorem performWith_grounded
    (hinfer : ∀ n (e : Engine), i.Grounded record e.cache →
      (i.env.Below record e.active fun k => i.env.derive? record k n) →
      (i.inferWithin depth n e).2.counters.depthCutoffs = e.counters.depthCutoffs →
      i.Grounded record (i.inferWithin depth n e).2.cache ∧
        i.env.Undisputed record n (i.inferWithin depth n e).1)
    (rule : Rule α) (e : Engine) (hc : i.Grounded record e.cache)
    (hbelow : i.env.Below record e.active fun k => rule.eval? (i.env.derive? record k) record)
    (hdepth : (i.performWith (i.inferWithin depth) rule e).2.counters.depthCutoffs =
      e.counters.depthCutoffs) :
    i.Grounded record (i.performWith (i.inferWithin depth) rule e).2.cache ∧
      ∃ F, rule.Yields (fun n t _ => i.env.Undisputed record n t) record
        (i.performWith (i.inferWithin depth) rule e).1 F := by
  induction rule generalizing e with
  | done a => exact ⟨hc, ∅, .done a⟩
  | ask node next ih =>
    simp only [performWith_ask] at hdepth ⊢
    -- no question of the whole run is too deep, so none of its parts is
    have hframe := i.frame_inferWithin depth node e
    have hfirst := hframe.depthCutoffs_le
    have hrest := (i.frame_performWith depth (next (i.inferWithin depth node e).1)
      (i.inferWithin depth node e).2).depthCutoffs_le
    obtain ⟨hc, ht⟩ := hinfer node e hc hbelow.ask (by omega)
    have hbelow' : i.env.Below record (i.inferWithin depth node e).2.active fun k =>
        (next (i.inferWithin depth node e).1).eval? (i.env.derive? record k) record := by
      rw [hframe.active]
      exact hbelow.next ht
    obtain ⟨hc, F, hF⟩ := ih _ (i.inferWithin depth node e).2 hc hbelow' (by omega)
    exact ⟨hc, ∅ ∪ F, .ask ht hF⟩
  | askRecord name next ih =>
    simp only [performWith_askRecord] at hdepth ⊢
    rw [hc.ask_fst] at hdepth ⊢
    obtain ⟨hc, F, hF⟩ := ih _ (i.ask name e).2 (hc.lookup name) hbelow.askRecord hdepth
    exact ⟨hc, F, .askRecord hF⟩
  | read file next ih =>
    simp only [performWith_read] at hdepth ⊢
    obtain ⟨hc, F, hF⟩ := ih (e.note file) (by simpa using hc) (by simpa using hbelow.read)
      (by simpa using hdepth)
    exact ⟨hc, insert file F, .read hF⟩

/-- The answer to a question is the derived type if there is one, whatever cycles the run meets. -/
theorem inferWithin_grounded (depth : Nat) (n : NodeId) (e : Engine)
    (hc : i.Grounded record e.cache)
    (hbelow : i.env.Below record e.active fun k => i.env.derive? record k n)
    (hdepth : (i.inferWithin depth n e).2.counters.depthCutoffs = e.counters.depthCutoffs) :
    i.Grounded record (i.inferWithin depth n e).2.cache ∧
      i.env.Undisputed record n (i.inferWithin depth n e).1 := by
  induction depth, n, e using i.inferWithin_induction with
  | outside depth n e h =>
    rw [inferWithin_outside h]
    exact ⟨hc, (i.env.groundedTyping record).outside h⟩
  | cycle depth n e h ha =>
    -- there is no derivation
    rw [inferWithin_active h ha]
    exact ⟨hc, fun t u ⟨k, hk⟩ => absurd ha (hbelow.notMem hk)⟩
  | tooDeep n e h ha =>
    rw [inferWithin_zero h ha] at hdepth
    exact absurd hdepth (Nat.succ_ne_self _)
  | hit depth n e x h ha hx =>
    rw [inferWithin_hit h ha hx]
    exact ⟨by simpa using hc.fetch n, hc.served hx⟩
  | miss depth n e h ha hx ih =>
    rw [inferWithin_miss h ha hx] at hdepth ⊢
    rw [Engine.counters_noteAll, Engine.counters_note] at hdepth
    obtain ⟨hc, F, hF⟩ : i.Grounded record (i.body depth n e).2.cache ∧
        ∃ F, (i.env.rule n).Yields (fun n t _ => i.env.Undisputed record n t) record
          (i.body depth n e).1 F :=
      performWith_grounded ih (i.env.rule n) _ (hc.fetch n)
        (hbelow.rule h) hdepth
    have hn := (i.env.groundedTyping record).rule h hF
    exact ⟨by simpa [kept] using hc.keep hn, hn⟩

end Inference

end MoveTyping
