import MoveTyping.Infer.Engine
import MoveTyping.Proofs.Cache.Served
import MoveTyping.Proofs.Infer.Task

/-!
# Engines under a protocol

What has to be shown of a protocol for an engine to keep to it, action by action: for a look-up of a
record, and for each of the ways in which a question for a type ends.

## Main results

* `Inference.typeTask_induction` — induction over questions.
* `Inference.safe_recordTask`, `Inference.safe_deriveWith` — when an engine keeps to a protocol.
* `Inference.always_typeTask` — the nodes under way are the same again in the end.
-/

namespace MoveTyping

variable {α : Type} {n : NodeId} {q : QName}

/-! ## States after an action -/

namespace Progress

variable {p : Progress}

@[simp] theorem active_note (p : Progress) (f : FileId) : (p.note f).active = p.active := by
  unfold note
  split <;> rfl

@[simp] theorem active_noteAll (p : Progress) (files : List FileId) :
    (p.noteAll files).active = p.active := by
  induction files generalizing p with
  | nil => rfl
  | cons f files ih => exact (ih (p.note f)).trans (p.active_note f)

end Progress

namespace Shared

/-- How often a question was cut off. -/
def cuts (s : Shared) : Nat := s.counters.cycles + s.counters.depthCutoffs

def count (s : Shared) (added : EngineCounters) : Shared :=
  { s with counters := s.counters + added }

def fetched (s : Shared) (n : NodeId) : Shared := { s with cache := (s.cache.fetch n).2 }

def kept (s : Shared) (n : NodeId) (ty : Option Ty) (generation : Nat) (files : List FileId) :
    Shared := { s with cache := s.cache.keep n ty generation files }

def indexed (s : Shared) (q : QName) (r : Record) (generation : Nat) : Shared :=
  { s with cache := (s.cache.indexRecordAt q r generation).2 }

theorem cuts_count (s : Shared) (added : EngineCounters) :
    (s.count added).cuts = s.cuts + (added.cycles + added.depthCutoffs) :=
  Nat.add_add_add_comm ..

theorem cuts_le_act (s : Shared) (a : Action) : s.cuts ≤ (s.act a).2.cuts := by
  cases a with
  | access call => exact Nat.le_refl _
  | count added => exact s.cuts_count added ▸ Nat.le_add_right ..

end Shared

/-! ## Records -/

namespace Env

variable {env : Env} {r : Record}

/-- The record that a name has in the program. -/
def ownRecord? (env : Env) (name : QName) : Option Record :=
  (env.findStruct? name).bind env.structRecord?

/-- The record that a name has in the program, or else in the library. -/
def found? (env : Env) (name : QName) : Option Record :=
  match env.findStruct? name with
  | some decl => env.structRecord? decl
  | none => env.catalog.record? name

theorem found?_of_ownRecord? (h : env.ownRecord? q = some r) : env.found? q = some r := by
  obtain ⟨decl, hdecl, hr⟩ := Option.bind_eq_some_iff.1 h
  simp [found?, hdecl, hr]

end Env

namespace Inference

variable {i : Inference} {P : Protocol} {s : Shared} {p : Progress} {depth : Nat}

/-- A look-up of a record keeps to a protocol if it is allowed to index a record of the program that
was not in the index when it looked. -/
theorem safe_recordTask {Q : Option Record → Prop}
    (known : ∀ s', P.Allows s s' → Q ((s'.cache.record? q).or (i.env.found? q)))
    (index : ∀ s' s'' r, P.Allows s s' → s'.cache.record? q = none →
      i.env.ownRecord? q = some r → P.Allows s' s'' →
      P.Allows s'' (s''.indexed q r i.generation)) :
    (i.recordTask q).Safe P (fun r _ => Q r) s := by
  intro s' hs'
  refine .inr ⟨.refl hs'.inv, ?_⟩
  have hknown := known s' hs'
  have hact : (s'.act (.access (.record q))) = (s'.cache.record? q, s') := rfl
  rw [hact]
  cases hq : s'.cache.record? q with
  | some r =>
    rw [hq] at hknown
    exact fun _ _ => hknown
  | none =>
    rw [hq, Option.none_or] at hknown
    unfold Env.found? at hknown
    simp only [Task.bind]
    cases hdecl : i.env.findStruct? q with
    | none =>
      simp only [hdecl] at hknown
      exact fun _ _ => hknown
    | some decl =>
      simp only [hdecl] at hknown
      cases hr : i.env.structRecord? decl with
      | none =>
        simp only [hr] at hknown ⊢
        exact fun _ _ => hknown
      | some r =>
        simp only [hr] at hknown ⊢
        intro s'' hs''
        have hown : i.env.ownRecord? q = some r := by simp [Env.ownRecord?, hdecl, hr]
        exact .inr ⟨index s' s'' r hs' hq hown hs'', fun _ _ => hknown⟩

/-! ## Rules and questions -/

section Equations

variable {infer : NodeId → Progress → Task (Option Ty × Progress)}

theorem ruleTask_ask (node : NodeId) (next : Option Ty → Rule α) :
    i.ruleTask infer (.ask node next) p =
      (infer node p).bind fun r => i.ruleTask infer (next r.1) r.2 := rfl

theorem ruleTask_askRecord (name : QName) (next : Option Record → Rule α) :
    i.ruleTask infer (.askRecord name next) p =
      (i.recordTask name).bind fun r => i.ruleTask infer (next r) p := rfl

/-- What is done about a node, one action after the other. -/
theorem deriveWith_eq :
    i.deriveWith infer n p = .act (.access (.fetch n)) fun found =>
      match found with
      | some x => .done (some x.ty, (p.note n.file).noteAll x.deps)
      | none => (Task.count { computed := 1 }).bind fun _ =>
        (i.ruleTask infer (i.env.rule n) (p.enter n)).bind fun r =>
        (Task.keep n r.1 i.generation r.2.files).bind fun _ =>
        .done (r.1, (p.note n.file).noteAll r.2.files) := by
  refine congrArg (Task.act _) (funext fun found => ?_)
  cases found with
  | some x => rfl
  | none =>
    change Task.bind (Task.bind (Task.bind (Task.count _) _) _) _ = _
    simp

end Equations

/-- A question that is about no node of the program. -/
theorem typeTask_outside (h : i.env.program.contains n = false) :
    i.typeTask depth n p = (Task.count { queries := 1 }).bind fun _ => .done (none, p) := by
  rw [typeTask.eq_def]
  simp only [h, Bool.not_false, ↓reduceIte]
  rfl

theorem typeTask_cycle (h : i.env.program.contains n = true) (ha : n ∈ p.active) :
    i.typeTask depth n p =
      (Task.count { queries := 1 }).bind fun _ => cutOff p { cycles := 1 } := by
  rw [typeTask.eq_def]
  simp only [h, Bool.not_true, Bool.false_eq_true, ↓reduceIte, List.contains_iff_mem, ha]
  rfl

theorem typeTask_zero (h : i.env.program.contains n = true) (ha : n ∉ p.active) :
    i.typeTask 0 n p =
      (Task.count { queries := 1 }).bind fun _ => cutOff p { depthCutoffs := 1 } := by
  rw [typeTask.eq_def]
  simp only [h, Bool.not_true, Bool.false_eq_true, ↓reduceIte, List.contains_iff_mem, ha]
  rfl

theorem typeTask_succ (h : i.env.program.contains n = true) (ha : n ∉ p.active) :
    i.typeTask (depth + 1) n p =
      (Task.count { queries := 1 }).bind fun _ => i.deriveWith (i.typeTask depth) n p := by
  rw [typeTask.eq_def]
  simp only [h, Bool.not_true, Bool.false_eq_true, ↓reduceIte, List.contains_iff_mem, ha]
  rfl

/-- Induction over questions. What holds of those that end at once, and of a question that is not
cut off if it holds of all questions at less depth, holds of every question. -/
theorem typeTask_induction (i : Inference) {motive : Nat → NodeId → Progress → Prop}
    (outside : ∀ depth n p, i.env.program.contains n = false → motive depth n p)
    (cycle : ∀ depth n p, i.env.program.contains n = true → n ∈ p.active → motive depth n p)
    (tooDeep : ∀ n p, i.env.program.contains n = true → n ∉ p.active → motive 0 n p)
    (derive : ∀ depth n p, i.env.program.contains n = true → n ∉ p.active →
      (∀ m p, motive depth m p) → motive (depth + 1) n p)
    (depth : Nat) (n : NodeId) (p : Progress) : motive depth n p := by
  induction depth generalizing n p with
  | zero =>
    cases h : i.env.program.contains n with
    | false => exact outside 0 n p h
    | true =>
      by_cases ha : n ∈ p.active
      · exact cycle 0 n p h ha
      · exact tooDeep n p h ha
  | succ depth ih =>
    cases h : i.env.program.contains n with
    | false => exact outside (depth + 1) n p h
    | true =>
      by_cases ha : n ∈ p.active
      · exact cycle (depth + 1) n p h ha
      · exact derive depth n p h ha ih

/-! ## Runs -/

theorem run_count (added : EngineCounters) (t : Task α) (s : Shared) :
    ((Task.count added).bind fun _ => t).run s = t.run (s.count added) := rfl

theorem run_fetch (n : NodeId) (next : Option Cached → Task α) (s : Shared) :
    (Task.act (.access (.fetch n)) next).run s = (next (s.cache.served? n)).run (s.fetched n) := rfl

theorem run_keep (n : NodeId) (ty : Option Ty) (generation : Nat) (files : List FileId)
    (t : Task α) (s : Shared) :
    ((Task.keep n ty generation files).bind fun _ => t).run s =
      t.run (s.kept n ty generation files) := by
  cases ty <;> rfl

/-! ## Protocols -/

variable {Q Q' : Option Ty × Progress → Shared → Prop}

theorem safe_count {added : EngineCounters} {t : Task α} {Q : α → Shared → Prop}
    (count : ∀ s', P.inv s' → P.Allows s' (s'.count added)) (h : t.Safe P Q s) :
    ((Task.count added).bind fun _ => t).Safe P Q s := by
  intro s' hs'
  have hcount := count s' hs'.inv
  exact .inr ⟨hcount, h.later (P.trans hs'.le hcount.le)⟩

/-- A cut-off may give the protocol up. -/
theorem safe_cutOff {added : EngineCounters} (lost : ∀ s', P.inv s' → P.lost (s'.count added)) :
    (cutOff p added).Safe P Q s := fun s' hs' => .inl (lost s' hs'.inv)

theorem safe_keep {ty : Option Ty} {generation : Nat} {files : List FileId} {t : Task α}
    {Q : α → Shared → Prop}
    (keep : ∀ s', P.Allows s s' → P.lost (s'.kept n ty generation files) ∨
      P.Allows s' (s'.kept n ty generation files) ∧ t.Safe P Q (s'.kept n ty generation files)) :
    ((Task.keep n ty generation files).bind fun _ => t).Safe P Q s := by
  cases ty with
  | some ty => exact keep
  | none =>
    -- nothing is stored, and the state is as it was
    refine Task.Safe.of_allowed fun s' hs' => ?_
    rcases keep s' hs' with hlost | ⟨-, h⟩
    · exact absurd hlost (P.not_lost hs'.inv)
    · exact h

/-- The cached type or the derived one: what a look-up finds may be handed on, a rule may be run if
it finds nothing, and what the rule gives may be stored. -/
theorem safe_deriveWith {infer : NodeId → Progress → Task (Option Ty × Progress)}
    (count : ∀ s', P.inv s' → P.Allows s' (s'.count { computed := 1 }))
    (fetch : ∀ s', P.inv s' → P.Allows s' (s'.fetched n))
    (hit : ∀ s' x, P.Allows s s' → s'.cache.served? n = some x →
      (Task.done (some x.ty, (p.note n.file).noteAll x.deps)).Safe P Q (s'.fetched n))
    (miss : ∀ s', P.Allows s s' → s'.cache.served? n = none →
      (i.ruleTask infer (i.env.rule n) (p.enter n)).Safe P Q' (s'.fetched n))
    (keep : ∀ r s', P.Allows s s' → Q' r s' →
      P.lost (s'.kept n r.1 i.generation r.2.files) ∨
        P.Allows s' (s'.kept n r.1 i.generation r.2.files) ∧
        (Task.done (r.1, (p.note n.file).noteAll r.2.files)).Safe P Q
          (s'.kept n r.1 i.generation r.2.files)) :
    (i.deriveWith infer n p).Safe P Q s := by
  rw [deriveWith_eq]
  intro s' hs'
  have hfetch := fetch s' hs'.inv
  refine .inr ⟨hfetch, ?_⟩
  have hact : s'.act (.access (.fetch n)) = (s'.cache.served? n, s'.fetched n) := rfl
  rw [hact]
  cases hx : s'.cache.served? n with
  | some x => exact hit s' x hs' hx
  | none =>
    refine safe_count count ((miss s' hs' hx).bind fun r s'' hs'' hr => ?_)
    refine safe_keep fun s''' hs''' => ?_
    exact keep r s''' (((hs'.trans hfetch).trans hs'').trans hs''') (hr s''' hs''')

/-- What a new engine gives, if its rule is safe. -/
theorem safe_task {rule : Rule α} {Q : α → Shared → Prop}
    (h : (i.ruleTask (i.typeTask i.limit.limit) rule {}).Safe P (fun r => Q r.1) s) :
    (i.task rule).Safe P Q s := h.bind fun _ _ _ hr => hr

/-! ## Nodes under way -/

theorem always_ruleTask {infer : NodeId → Progress → Task (Option Ty × Progress)}
    (hinfer : ∀ n p, (infer n p).Always fun r => r.2.active = p.active) (rule : Rule α)
    (p : Progress) : (i.ruleTask infer rule p).Always fun r => r.2.active = p.active := by
  induction rule generalizing p with
  | done a => rfl
  | ask node next ih =>
    rw [ruleTask_ask]
    refine (hinfer node p).bind fun r hr => ?_
    rw [← hr]
    exact ih r.1 r.2
  | askRecord name next ih =>
    rw [ruleTask_askRecord]
    exact (i.recordTask name).always_true.bind fun r _ => ih r p
  | read file next ih => exact p.active_note file ▸ ih (p.note file)

/-- The nodes under way are the same before and after a question. -/
theorem always_typeTask (i : Inference) (depth : Nat) (n : NodeId) (p : Progress) :
    (i.typeTask depth n p).Always fun r => r.2.active = p.active := by
  induction depth, n, p using i.typeTask_induction with
  | outside depth n p h =>
    rw [typeTask_outside h]
    exact fun _ => rfl
  | cycle depth n p h ha =>
    rw [typeTask_cycle h ha]
    exact fun _ _ => rfl
  | tooDeep n p h ha =>
    rw [typeTask_zero h ha]
    exact fun _ _ => rfl
  | derive depth n p h ha _ =>
    have hnote : ∀ files, ((p.note n.file).noteAll files).active = p.active := by simp
    rw [typeTask_succ h ha, deriveWith_eq]
    rintro ⟨⟩ (_ | x)
    · have hrule := (i.ruleTask (i.typeTask depth) (i.env.rule n) (p.enter n)).always_true
      exact fun _ => hrule.bind fun r _ =>
        (Task.always_true _).bind fun _ _ => hnote r.2.files
    · exact hnote x.deps

end Inference

end MoveTyping
