import MoveTyping.Tree.Build
import MoveTyping.Proofs.Infer.Run

/-!
# Recorded files

The files that are recorded for a node contain those of every node that its computation has asked
for, and of the nodes asked for by these, and so on. A computation begins with an empty list of
files, the list of its asker is put back when it ends, and what was recorded for the node is noted
there together with the file of the node, whether the type was computed or cached.

A question is a node at a moment of a run, and a moment is any state of the engine. So what is said
here about questions is said about every run.

## Main definitions

* `Question`, `Inference.Admits` — the questions, and those that are not cut off.
* `Inference.Asks` — a question that the computation for another one asks.
* `Inference.Records` — the files that are recorded for a question, as they are handed to the asker
  and as they are stored.

## Main results

* `Inference.records_closed` — the recorded files are closed under the questions of a computation.
-/

namespace MoveTyping

variable {α : Type}

/-! ## Notes -/

namespace Engine

variable {e : Engine} {f g : FileId} {files : List FileId}

theorem mem_files_note : f ∈ (e.note g).files ↔ f = g ∨ f ∈ e.files := by
  rw [← List.mem_toFinset, toFinset_files_note, Finset.mem_insert, List.mem_toFinset]

theorem mem_files_noteAll : f ∈ (e.noteAll files).files ↔ f ∈ e.files ∨ f ∈ files := by
  rw [← List.mem_toFinset, toFinset_files_noteAll, Finset.mem_union, List.mem_toFinset,
    List.mem_toFinset]

theorem files_prefix_note (e : Engine) (f : FileId) : e.files <+: (e.note f).files := by
  simp only [note, Progress.note]
  split
  · exact List.prefix_rfl
  · exact List.prefix_append _ _

theorem files_prefix_noteAll (e : Engine) (files : List FileId) :
    e.files <+: (e.noteAll files).files := by
  induction files generalizing e with
  | nil => exact List.prefix_rfl
  | cons f files ih => exact (e.files_prefix_note f).trans (ih (e.note f))

end Engine

/-! ## Questions -/

/-- A node that the engine is asked for, and the engine at that moment. -/
structure Question where
  node : NodeId
  engine : Engine

/-- The engine at the beginning of the computation for a question. -/
def Question.begun (q : Question) : Engine := (q.engine.consulted q.node).enter q.node

namespace Inference

variable {i : Inference} {e : Engine} {n : NodeId} {q q' : Question} {f : FileId}

/-- The question is about a node of the program, the node is not under way, and the question is not
too deep. -/
structure Admits (i : Inference) (q : Question) : Prop where
  contains : i.env.program.contains q.node = true
  notMem : q.node ∉ q.engine.active
  allows : i.limit.allows q.engine.active.length = true

/-- The levels that are left are the same after a question. -/
theorem depthLeft_infer (i : Inference) (n : NodeId) (e : Engine) :
    i.depthLeft (i.infer n e).2 = i.depthLeft e := by
  rw [depthLeft, depthLeft, infer_eq_inferWithin, (i.frame_inferWithin _ n e).active]

theorem perform_ask (node : NodeId) (next : Option Ty → Rule α) :
    i.perform (.ask node next) e = i.perform (next (i.infer node e).1) (i.infer node e).2 := by
  rw [perform_eq, perform_eq, depthLeft_infer, performWith_ask, infer_eq_inferWithin]

theorem perform_askRecord (name : QName) (next : Option Record → Rule α) :
    i.perform (.askRecord name next) e =
      i.perform (next (i.ask name e).1) (i.ask name e).2 := by
  simp only [perform_eq, performWith_askRecord]
  rfl

theorem perform_read (file : FileId) (next : Rule α) :
    i.perform (.read file next) e = i.perform next (e.note file) := by
  simp only [perform_eq, performWith_read, depthLeft, Engine.active_note]

/-- The run of the rule for a question. -/
def computation (i : Inference) (q : Question) : Option Ty × Engine :=
  i.perform (i.env.rule q.node) q.begun

/-- The files that are handed to the asker: those of the cached type, or those that the computation
has read. -/
def recorded (i : Inference) (q : Question) : List FileId :=
  match q.engine.cache.served? q.node with
  | some x => x.deps
  | none => (i.computation q).2.files

theorem Admits.exists_depthLeft (h : i.Admits q) :
    ∃ depth, i.depthLeft q.engine = depth + 1 ∧ i.depthLeft q.begun = depth := by
  have hlt : q.engine.active.length < i.limit.limit := by
    simpa [DepthLimit.allows] using h.allows
  refine ⟨i.depthLeft q.begun, ?_, rfl⟩
  simp only [depthLeft, Question.begun, Engine.active_enter, Engine.active_consulted,
    List.length_cons]
  omega

theorem Admits.infer_hit (h : i.Admits q) {x : Cached}
    (hx : q.engine.cache.served? q.node = some x) :
    i.infer q.node q.engine =
      (some x.ty, ((q.engine.consulted q.node).note q.node.file).noteAll x.deps) := by
  obtain ⟨depth, hdepth, -⟩ := h.exists_depthLeft
  rw [infer_eq_inferWithin, hdepth, inferWithin_hit h.contains h.notMem hx]

theorem Admits.infer_miss (h : i.Admits q) (hx : q.engine.cache.served? q.node = none) :
    i.infer q.node q.engine = ((i.computation q).1,
      (((i.computation q).2.concluded q.engine.files
        ((i.computation q).2.cache.keep q.node (i.computation q).1 i.generation
          (i.computation q).2.files)).note q.node.file).noteAll (i.computation q).2.files) := by
  obtain ⟨depth, hdepth, hbegun⟩ := h.exists_depthLeft
  have hcomputation : i.computation q = i.body depth q.node q.engine := by
    rw [computation, perform_eq, hbegun]
    rfl
  rw [infer_eq_inferWithin, hdepth, inferWithin_miss h.contains h.notMem hx, hcomputation]
  rfl

/-! ## What the asker notes -/

/-- After a question that is not cut off, the asker has its own files again, and notes the file of
the node and the recorded ones. -/
theorem Admits.exists_files (h : i.Admits q) :
    ∃ e : Engine, e.files = q.engine.files ∧
      (i.infer q.node q.engine).2 = (e.note q.node.file).noteAll (i.recorded q) := by
  unfold recorded
  cases hx : q.engine.cache.served? q.node with
  | some x =>
    rw [h.infer_hit hx]
    exact ⟨q.engine.consulted q.node, rfl, rfl⟩
  | none =>
    rw [h.infer_miss hx]
    exact ⟨(i.computation q).2.concluded q.engine.files _, rfl, rfl⟩

theorem Admits.mem_files (h : i.Admits q) (hf : f ∈ q.node.file :: i.recorded q) :
    f ∈ (i.infer q.node q.engine).2.files := by
  obtain ⟨e, -, he⟩ := h.exists_files
  rw [he, Engine.mem_files_noteAll, Engine.mem_files_note]
  rcases List.mem_cons.1 hf with hf | hf
  · exact .inl (.inl hf)
  · exact .inr hf

/-- A question that is cut off notes nothing. -/
theorem files_infer_of_not_admits (h : ¬i.Admits q) :
    (i.infer q.node q.engine).2.files = q.engine.files := by
  rw [infer_eq_inferWithin]
  cases hn : i.env.program.contains q.node with
  | false => rw [inferWithin_outside hn]; rfl
  | true =>
    by_cases ha : q.node ∈ q.engine.active
    · rw [inferWithin_active hn ha]; rfl
    · have hdepth : i.depthLeft q.engine = 0 := by
        have hallows : ¬q.engine.active.length < i.limit.limit := by
          intro hlt
          exact h ⟨hn, ha, by simpa [DepthLimit.allows] using hlt⟩
        rw [depthLeft]
        omega
      rw [hdepth, inferWithin_zero hn ha]
      rfl

/-- A question takes no file from the list of its asker. -/
theorem files_prefix_infer (i : Inference) (q : Question) :
    q.engine.files <+: (i.infer q.node q.engine).2.files := by
  by_cases h : i.Admits q
  · obtain ⟨e, hfiles, he⟩ := h.exists_files
    rw [he, ← hfiles]
    exact (e.files_prefix_note _).trans (Engine.files_prefix_noteAll _ _)
  · rw [files_infer_of_not_admits h]

theorem files_prefix_perform (i : Inference) (rule : Rule α) (e : Engine) :
    e.files <+: (i.perform rule e).2.files := by
  induction rule generalizing e with
  | done a => exact List.prefix_rfl
  | ask node next ih =>
    rw [perform_ask]
    exact (i.files_prefix_infer ⟨node, e⟩).trans (ih _ _)
  | askRecord name next ih =>
    rw [perform_askRecord]
    exact ih _ (i.ask name e).2
  | read file next ih =>
    rw [perform_read]
    exact (e.files_prefix_note file).trans (ih _)

/-! ## The questions of a computation -/

/-- The questions that a rule asks itself, in their order. -/
def questions (i : Inference) : Rule α → Engine → List Question
  | .done _, _ => []
  | .ask node next, e =>
    ⟨node, e⟩ :: i.questions (next (i.infer node e).1) (i.infer node e).2
  | .askRecord name next, e => i.questions (next (i.ask name e).1) (i.ask name e).2
  | .read file next, e => i.questions next (e.note file)

/-- The computation for a question asks another one. -/
structure Asks (i : Inference) (q q' : Question) : Prop where
  admits : i.Admits q
  computed : q.engine.cache.served? q.node = none
  mem : q' ∈ i.questions (i.env.rule q.node) q.begun

/-- What a question leaves in the list of its asker is still there in the end. -/
theorem files_prefix_of_mem_questions {rule : Rule α} (h : q ∈ i.questions rule e) :
    (i.infer q.node q.engine).2.files <+: (i.perform rule e).2.files := by
  induction rule generalizing e with
  | done a => cases h
  | ask node next ih =>
    rw [perform_ask]
    rcases List.mem_cons.1 h with rfl | h
    · exact i.files_prefix_perform _ _
    · exact ih _ h
  | askRecord name next ih =>
    rw [perform_askRecord]
    exact ih _ h
  | read file next ih =>
    rw [perform_read]
    exact ih h

theorem Asks.mem_recorded (h : i.Asks q q') (hq' : i.Admits q')
    (hf : f ∈ q'.node.file :: i.recorded q') : f ∈ i.recorded q := by
  rw [recorded, h.computed]
  exact (files_prefix_of_mem_questions h.mem).subset (hq'.mem_files hf)

/-- The files handed on are closed under the questions of the computation, at any distance. -/
theorem mem_recorded_of_transGen (h : Relation.TransGen i.Asks q q') (hq' : i.Admits q')
    (hf : f ∈ q'.node.file :: i.recorded q') : f ∈ i.recorded q := by
  induction h using Relation.TransGen.head_induction_on with
  | single h => exact h.mem_recorded hq' hf
  | head h hrest ih =>
    -- a question that has asked another one was not cut off itself
    obtain ⟨_, hnext, -⟩ := Relation.TransGen.head'_iff.1 hrest
    exact h.mem_recorded hnext.admits (List.mem_cons_of_mem _ ih)

/-! ## What is stored -/

/-- Nothing is stored for a node while it is under way. -/
theorem performWith_unserved {infer : NodeId → Engine → Option Ty × Engine}
    (hactive : ∀ m (e : Engine), (infer m e).2.active = e.active)
    (hinfer : ∀ m (e : Engine), n ∈ e.active → e.cache.served? n = none →
      (infer m e).2.cache.served? n = none)
    (rule : Rule α) (e : Engine) (hn : n ∈ e.active) (hnone : e.cache.served? n = none) :
    (i.performWith infer rule e).2.cache.served? n = none := by
  induction rule generalizing e with
  | done a => exact hnone
  | ask node next ih => exact ih _ _ ((hactive node e).symm ▸ hn) (hinfer node e hn hnone)
  | askRecord name next ih =>
    exact ih _ _ hn ((i.served?_lookup name e.cache n).trans hnone)
  | read file next ih => exact ih _ (by simpa using hn) (by simpa using hnone)

theorem inferWithin_unserved (depth : Nat) (m : NodeId) (e : Engine) (hn : n ∈ e.active)
    (hnone : e.cache.served? n = none) : (i.inferWithin depth m e).2.cache.served? n = none := by
  induction depth, m, e using i.inferWithin_induction with
  | outside depth m e h =>
    rw [inferWithin_outside h]
    exact hnone
  | cycle depth m e h ha =>
    rw [inferWithin_active h ha]
    exact hnone
  | tooDeep m e h ha =>
    rw [inferWithin_zero h ha]
    exact hnone
  | hit depth m e x h ha hx =>
    rw [inferWithin_hit h ha hx]
    simpa using hnone
  | miss depth m e h ha hx ih =>
    have hbody : (i.body depth m e).2.cache.served? n = none :=
      performWith_unserved (fun m e => (i.frame_inferWithin depth m e).active) ih (i.env.rule m) _
        (List.mem_cons_of_mem m hn) (by simpa using hnone)
    -- what is stored now is the type of `m`, which was not under way
    have hne : n ≠ m := ne_of_mem_of_not_mem hn ha
    rw [cache_inferWithin_miss h ha hx]
    refine Option.eq_none_iff_forall_ne_some.2 fun y hy => ?_
    rcases Cache.served?_of_keep hy with hm | hy
    · exact hne hm
    · simp [hbody] at hy

/-- What is stored for a node after a question are the recorded files besides its own. -/
theorem Admits.mem_deps (h : i.Admits q) {x : Cached}
    (hx : (i.infer q.node q.engine).2.cache.served? q.node = some x) :
    f ∈ q.node.file :: x.deps ↔ f ∈ q.node.file :: i.recorded q := by
  unfold recorded
  cases hserved : q.engine.cache.served? q.node with
  | some y =>
    rw [h.infer_hit hserved] at hx
    simp only [Engine.cache_noteAll, Engine.cache_note, Engine.cache_consulted,
      Cache.served?_fetch, hserved, Option.some.injEq] at hx
    rw [hx]
  | none =>
    rw [h.infer_miss hserved, Engine.cache_noteAll, Engine.cache_note] at hx
    have hnone : (i.computation q).2.cache.served? q.node = none := by
      rw [computation, perform_eq]
      exact performWith_unserved (fun m e => (i.frame_inferWithin _ m e).active)
        (inferWithin_unserved _) (i.env.rule q.node) q.begun List.mem_cons_self
        (by simpa [Question.begun] using hserved)
    cases ht : (i.computation q).1 with
    | none =>
      rw [ht] at hx
      exact absurd (hnone.symm.trans hx) (by simp)
    | some t =>
      rw [ht] at hx
      rcases Cache.served?_of_insert hx with ⟨-, rfl, -, -⟩ | hx
      · simp only [List.mem_cons, Cache.mem_otherFiles]
        tauto
      · simp [hnone] at hx

/-- The files recorded for a question: the list that is handed to the asker, or the one that is
stored with the type of the node. -/
def Records (i : Inference) (q : Question) (files : List FileId) : Prop :=
  files = i.recorded q ∨
    ∃ x, (i.infer q.node q.engine).2.cache.served? q.node = some x ∧ files = x.deps

theorem Records.mem_iff {files : List FileId} (h : i.Records q files) (hq : i.Admits q) :
    f ∈ q.node.file :: files ↔ f ∈ q.node.file :: i.recorded q := by
  rcases h with rfl | ⟨x, hx, rfl⟩
  · exact Iff.rfl
  · exact hq.mem_deps hx

/-- Recorded files are closed under questions. If the computation for a question asks another one,
itself or through the questions that it asks, and that one is not cut off, then its file and all
that is recorded for it are recorded for the first question, unless it is the file of the node
itself. No question, cut off or not, takes a file from the list of the computation that asks it. -/
theorem records_closed (i : Inference) :
    (∀ q q' files files', Relation.TransGen i.Asks q q' → i.Admits q' →
        i.Records q files → i.Records q' files' →
        ∀ f ∈ q'.node.file :: files', f ∈ q.node.file :: files) ∧
      ∀ q : Question, q.engine.files <+: (i.infer q.node q.engine).2.files := by
  refine ⟨fun q q' files files' h hq' hfiles hfiles' f hf => ?_, i.files_prefix_infer⟩
  obtain ⟨_, hfirst, -⟩ := Relation.TransGen.head'_iff.1 h
  rw [hfiles.mem_iff hfirst.admits]
  exact List.mem_cons_of_mem _ (mem_recorded_of_transGen h hq' ((hfiles'.mem_iff hq').1 hf))

/-- `module 0x5::a` with `const A = 0x5::b::B`, `module 0x5::b` with `const B = 0x5::c::C`, and
`module 0x5::c` with a constant `C`, each in a file of its own. -/
def relayProgram : Program :=
  let relay (file : FileId) (owner name : String) (target : QName) : Tree := Build.tree file do
    let const ← Build.node (.const name none (some (← Build.path target [])))
    Build.module "0x5" owner [const]
  let last : Tree := Build.tree 2 do
    let const ← Build.node (.const "C" (some (← Build.typePath (.simple "u64") [])) none)
    Build.module "0x5" "c" [const]
  ((Program.empty.insert (relay 0 "a" "A" (.full "0x5" "b" "B"))).insert
    (relay 1 "b" "B" (.full "0x5" "c" "C"))).insert last

def relayInference : Inference := ⟨.ofProgram relayProgram .empty, 1, .ofMax 8⟩

/-- The constant `A`, asked for when the type of `B` is known already: its computation asks for the
path, and that asks for `B`, which is cached together with the file of `C`. -/
theorem records_closed_relay :
    let i := relayInference
    let q : Question := ⟨⟨0, 1⟩, (i.infer ⟨1, 1⟩ (.ofCache (.ofSettings {}))).2⟩
    let path : Question := ⟨⟨0, 0⟩, q.begun⟩
    let q' : Question := ⟨⟨1, 1⟩, path.begun⟩
    Relation.TransGen i.Asks q q' ∧ i.recorded q' = [2] ∧ 1 ∈ i.recorded q ∧ 2 ∈ i.recorded q := by
  intro i q path q'
  have hconst : i.env.rule q.node = some <$> Rule.typeOf ⟨0, 0⟩ := rfl
  have hvalue : i.env.rule path.node = some <$> Rule.typeOf ⟨1, 1⟩ := rfl
  have hasks : Relation.TransGen i.Asks q q' := by
    refine .head (b := path) ⟨⟨by decide +kernel, by decide, by decide⟩, by decide +kernel, ?_⟩
      (.single ⟨⟨by decide +kernel, by decide, by decide⟩, by decide +kernel, ?_⟩)
    · rw [hconst]
      exact List.mem_cons_self
    · rw [hvalue]
      exact List.mem_cons_self
  have hq' : i.Admits q' := ⟨by decide +kernel, by decide, by decide⟩
  have hfiles : i.recorded q' = [2] := by decide +kernel
  have hclosed := i.records_closed.1 q q' _ _ hasks hq' (.inl rfl) (.inl rfl)
  refine ⟨hasks, hfiles, ?_, ?_⟩
  · simpa [q, q'] using hclosed 1 List.mem_cons_self
  · simpa [q, q'] using hclosed 2 (by simp [hfiles])

end Inference

end MoveTyping
