import MoveTyping.Proofs.Cache.Memory
import MoveTyping.Proofs.Infer.Run
import MoveTyping.Proofs.Program

/-!
# Engines in step

Two engines that work on the same environment over caches with different pasts. If the caches
remember the same, the engines give the same answers and leave caches behind that remember the same
again. That is so of one engine on either side, and of many that take the same turns.

## Main definitions

* `Task.InStep` — two tasks in step.
* `Inference.since` — the same inference under another generation.
* `Inference.Twins` — two shared states in step.

## Main results

* `Pool.run_inStep` — tasks in step give the same results, under every schedule.
* `Inference.inStep_ruleTask`, `Inference.inStep_typeTask` — engines over twins are in step.
-/

namespace MoveTyping

variable {α β : Type} {n : NodeId} {s s' : Shared}

/-! ## Tasks in step -/

namespace Task

variable {R : Shared → Shared → Prop} {t t' : Task α} {f f' : α → Task β}

/-- Over states that are related, both tasks take the same number of actions, which keep the states
related, and come to the same result. -/
def InStep (R : Shared → Shared → Prop) : Task α → Task α → Prop
  | done a, done a' => a' = a
  | act a next, act a' next' => ∀ s s', R s s' →
      R (s.act a).2 (s'.act a').2 ∧ InStep R (next (s.act a).1) (next' (s'.act a').1)
  | _, _ => False

namespace InStep

theorem bind (h : InStep R t t') (hf : ∀ a, InStep R (f a) (f' a)) :
    InStep R (t.bind f) (t'.bind f') := by
  induction t generalizing t' with
  | done a =>
    cases t' with
    | done a' => exact h ▸ hf a
    | act a' next' => exact h.elim
  | act a next ih =>
    cases t' with
    | done a' => exact h.elim
    | act a' next' =>
      intro s s' hs
      obtain ⟨hact, hnext⟩ := h s s' hs
      exact ⟨hact, ih _ hnext⟩

theorem step (h : InStep R t t') (hs : R s s') :
    R (t.step s).2 (t'.step s').2 ∧ InStep R (t.step s).1 (t'.step s').1 := by
  cases t with
  | done a =>
    cases t' with
    | done a' => exact ⟨hs, h⟩
    | act a' next' => exact h.elim
  | act a next =>
    cases t' with
    | done a' => exact h.elim
    | act a' next' => exact h s s' hs

theorem run (h : InStep R t t') (hs : R s s') :
    (t'.run s').1 = (t.run s).1 ∧ R (t.run s).2 (t'.run s').2 := by
  induction t generalizing t' s s' with
  | done a =>
    cases t' with
    | done a' => exact ⟨h, hs⟩
    | act a' next' => exact h.elim
  | act a next ih =>
    cases t' with
    | done a' => exact h.elim
    | act a' next' =>
      obtain ⟨hact, hnext⟩ := h s s' hs
      rw [run_act, run_act]
      exact ih _ hnext hact

end InStep

end Task

namespace Pool

variable {R : Shared → Shared → Prop} {p p' : Pool α} {tasks tasks' : List (Task α)}

theorem turn_inStep (htasks : List.Forall₂ (Task.InStep R) p.tasks p'.tasks)
    (hs : R p.shared p'.shared) (k : Nat) :
    List.Forall₂ (Task.InStep R) (p.turn k).tasks (p'.turn k).tasks ∧
      R (p.turn k).shared (p'.turn k).shared := by
  obtain ⟨hlength, hget⟩ := List.forall₂_iff_get.1 htasks
  unfold Pool.turn
  by_cases hk : k < p.tasks.length
  · have hk' : k < p'.tasks.length := hlength ▸ hk
    rw [List.getElem?_eq_getElem hk, List.getElem?_eq_getElem hk']
    obtain ⟨hstep, hnext⟩ := (hget k hk hk').step hs
    refine ⟨List.forall₂_iff_get.2 ⟨by simpa using hlength, fun j hj hj' => ?_⟩, hstep⟩
    simp only [List.get_eq_getElem, List.getElem_set]
    split
    · exact hnext
    · exact hget j (by simpa using hj) (by simpa using hj')
  · rw [List.getElem?_eq_none (Nat.le_of_not_lt hk),
      List.getElem?_eq_none (hlength ▸ Nat.le_of_not_lt hk)]
    exact ⟨htasks, hs⟩

theorem turns_inStep (htasks : List.Forall₂ (Task.InStep R) p.tasks p'.tasks)
    (hs : R p.shared p'.shared) (schedule : List Nat) :
    List.Forall₂ (Task.InStep R) (schedule.foldl turn p).tasks (schedule.foldl turn p').tasks ∧
      R (schedule.foldl turn p).shared (schedule.foldl turn p').shared := by
  induction schedule generalizing p p' with
  | nil => exact ⟨htasks, hs⟩
  | cons k schedule ih =>
    obtain ⟨htasks, hs⟩ := turn_inStep htasks hs k
    exact ih htasks hs

theorem finish_inStep (htasks : List.Forall₂ (Task.InStep R) tasks tasks') (hs : R s s') :
    (finish tasks' s').1 = (finish tasks s).1 ∧ R (finish tasks s).2 (finish tasks' s').2 := by
  induction htasks generalizing s s' with
  | nil => exact ⟨rfl, hs⟩
  | cons ht _ ih =>
    obtain ⟨hresult, hs⟩ := ht.run hs
    obtain ⟨hresults, hs⟩ := ih hs
    exact ⟨congrArg₂ List.cons hresult hresults, hs⟩

/-- Tasks in step that take the same turns give the same results. -/
theorem run_inStep (htasks : List.Forall₂ (Task.InStep R) tasks tasks') (hs : R s s')
    (schedule : List Nat) :
    (run ⟨tasks', s'⟩ schedule).1 = (run ⟨tasks, s⟩ schedule).1 ∧
      R (run ⟨tasks, s⟩ schedule).2 (run ⟨tasks', s'⟩ schedule).2 := by
  obtain ⟨htasks, hs⟩ := @turns_inStep α R ⟨tasks, s⟩ ⟨tasks', s'⟩ htasks hs schedule
  exact finish_inStep htasks hs

end Pool

/-! ## Engines -/

namespace Inference

variable {i : Inference} {g depth : Nat}

/-- The same inference under another generation. -/
def since (i : Inference) (generation : Nat) : Inference := { i with generation }

/-- Two states of what engines share, each with a cache at the generation of its engines. -/
structure Twins (i : Inference) (g : Nat) (s s' : Shared) : Prop where
  cache : Cache.Twin i.env.program.files s.cache s'.cache
  generation : i.generation = s.cache.generation
  generation' : g = s'.cache.generation

namespace Twins

theorem fetched (h : Twins i g s s') (n : NodeId) : Twins i g (s.fetched n) (s'.fetched n) where
  cache := h.cache.fetch n
  generation := h.generation.trans (Cache.Unedited.fetch s.cache n).generation.symm
  generation' := h.generation'.trans (Cache.Unedited.fetch s'.cache n).generation.symm

/-- The result of a node is kept in both caches. -/
theorem kept (h : Twins i g s s') (hn : i.env.program.contains n = true) (ty : Option Ty)
    (files : List FileId) :
    Twins i g (s.kept n ty i.generation files) (s'.kept n ty g files) where
  cache := by
    rw [h.generation, h.generation']
    exact h.cache.keep (Program.file_mem_files hn) ty files
  generation := h.generation.trans (Cache.Unedited.keep ..).generation.symm
  generation' := h.generation'.trans (Cache.Unedited.keep ..).generation.symm

/-- Both index a record, since both are at the generation of their engines. -/
theorem indexed (h : Twins i g s s') (q : QName) (r : Record) :
    Twins i g (s.indexed q r i.generation) (s'.indexed q r g) := by
  have hs : s.indexed q r i.generation = { s with cache := s.cache.indexRecord q r } := by
    simp [Shared.indexed, Cache.indexRecordAt, h.generation]
  have hs' : s'.indexed q r g = { s' with cache := s'.cache.indexRecord q r } := by
    simp [Shared.indexed, Cache.indexRecordAt, h.generation']
  rw [hs, hs']
  exact ⟨h.cache.indexRecord q r, h.generation, h.generation'⟩

end Twins

theorem inStep_count {added : EngineCounters} {t t' : Task α} (h : t.InStep (i.Twins g) t') :
    ((Task.count added).bind fun _ => t).InStep (i.Twins g)
      ((Task.count added).bind fun _ => t') :=
  fun _ _ hs => ⟨⟨hs.cache, hs.generation, hs.generation'⟩, h⟩

theorem inStep_keep (hn : i.env.program.contains n = true) (ty : Option Ty) (files : List FileId) :
    (Task.keep n ty i.generation files).InStep (i.Twins g) (Task.keep n ty g files) := by
  cases ty with
  | none => exact rfl
  | some ty => exact fun _ _ hs => ⟨hs.kept hn (some ty) files, rfl⟩

/-- Both find the same record, and both index it or neither. -/
theorem inStep_recordTask (i : Inference) (g : Nat) (q : QName) :
    (i.recordTask q).InStep (i.Twins g) ((i.since g).recordTask q) := by
  intro s s' hs
  refine ⟨hs, ?_⟩
  have hact : ∀ s : Shared, s.act (.access (.record q)) = (s.cache.record? q, s) := fun _ => rfl
  rw [hact, hact, hs.cache.records q]
  cases s.cache.record? q with
  | some r => exact rfl
  | none =>
    have henv : (i.since g).env = i.env := rfl
    simp only [Task.bind, henv]
    cases i.env.findStruct? q with
    | none => exact rfl
    | some decl =>
      cases hr : i.env.structRecord? decl with
      | none =>
        simp only [hr]
        exact rfl
      | some r =>
        simp only [hr]
        exact fun _ _ hs => ⟨hs.indexed q r, rfl⟩

/-- Engines that answer each question in step run a rule in step. -/
theorem inStep_ruleTask {infer infer' : NodeId → Progress → Task (Option Ty × Progress)}
    (hinfer : ∀ n p, (infer n p).InStep (i.Twins g) (infer' n p)) (rule : Rule α) (p : Progress) :
    (i.ruleTask infer rule p).InStep (i.Twins g) ((i.since g).ruleTask infer' rule p) := by
  induction rule generalizing p with
  | done a => exact rfl
  | ask node next ih =>
    rw [ruleTask_ask, ruleTask_ask]
    exact (hinfer node p).bind fun r => ih r.1 r.2
  | askRecord name next ih =>
    rw [ruleTask_askRecord, ruleTask_askRecord]
    exact (i.inStep_recordTask g name).bind fun r => ih r p
  | read file next ih => exact ih (p.note file)

/-- Engines over twins answer every question in step. -/
theorem inStep_typeTask (i : Inference) (g depth : Nat) (n : NodeId) (p : Progress) :
    (i.typeTask depth n p).InStep (i.Twins g) ((i.since g).typeTask depth n p) := by
  induction depth, n, p using i.typeTask_induction with
  | outside depth n p h =>
    rw [typeTask_outside h, typeTask_outside (i := i.since g) h]
    exact inStep_count rfl
  | cycle depth n p h ha =>
    rw [typeTask_cycle h ha, typeTask_cycle (i := i.since g) h ha]
    exact inStep_count (inStep_count rfl)
  | tooDeep n p h ha =>
    rw [typeTask_zero h ha, typeTask_zero (i := i.since g) h ha]
    exact inStep_count (inStep_count rfl)
  | derive depth n p h ha ih =>
    rw [typeTask_succ h ha, typeTask_succ (i := i.since g) h ha, deriveWith_eq, deriveWith_eq]
    refine inStep_count fun s s' hs => ⟨hs.fetched n, ?_⟩
    have hact : ∀ s : Shared, s.act (.access (.fetch n)) = (s.cache.served? n, s.fetched n) :=
      fun _ => rfl
    rw [hact, hact, hs.cache.served? n]
    cases s.cache.served? n with
    | some x => exact rfl
    | none =>
      exact inStep_count ((inStep_ruleTask ih (i.env.rule n) (p.enter n)).bind fun r =>
        (inStep_keep h r.1 r.2.files).bind fun _ => rfl)

/-- New engines over twins are in step. -/
theorem inStep_task (i : Inference) (g : Nat) (rule : Rule α) :
    (i.task rule).InStep (i.Twins g) ((i.since g).task rule) :=
  (inStep_ruleTask (i.inStep_typeTask g i.limit.limit) rule {}).bind fun _ => rfl

end Inference

end MoveTyping
