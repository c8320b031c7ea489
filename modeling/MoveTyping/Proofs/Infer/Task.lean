import MoveTyping.Infer.Task
import MoveTyping.Proofs.Lists

/-!
# Tasks that keep to a protocol

What tasks side by side can rely on. A protocol says what holds whenever a task comes to the shared
state, and how the state may have moved since the task was there last. A task is safe if, whatever
the others have done by these rules, its own actions follow them too. Then tasks that are safe one
by one are safe together, under every schedule.

A protocol may be given up: there are states from which on nothing is promised, and which no action
leaves again.

## Main definitions

* `Protocol` — the rules, `Task.Safe` — a task that follows them.

## Main results

* `Task.Safe.bind` — tasks one after the other.
* `Task.Safe.run` — a safe task by itself.
* `Pool.run_safe` — safe tasks side by side.
-/

namespace MoveTyping

variable {α β ι : Type} {s s' : Shared}

structure Protocol where
  /-- What holds when an action begins. -/
  inv : Shared → Prop
  /-- How the state may have moved. -/
  le : Shared → Shared → Prop
  /-- The states in which the protocol is given up. -/
  lost : Shared → Prop
  refl : ∀ s, le s s
  trans : ∀ {s s' s''}, le s s' → le s' s'' → le s s''
  not_lost : ∀ {s}, inv s → ¬lost s
  lost_act : ∀ {s} (a : Action), lost s → lost (s.act a).2

/-- A move from one state to another that the protocol allows. -/
structure Protocol.Allows (P : Protocol) (s s' : Shared) : Prop where
  le : P.le s s'
  inv : P.inv s'

variable {P : Protocol}

namespace Protocol.Allows

theorem refl (h : P.inv s) : P.Allows s s := ⟨P.refl s, h⟩

theorem trans {s'' : Shared} (h : P.Allows s s') (h' : P.Allows s' s'') : P.Allows s s'' :=
  ⟨P.trans h.le h'.le, h'.inv⟩

end Protocol.Allows

namespace Protocol

/-- Whatever the first protocol allows, the second one does. -/
structure Stricter (P P' : Protocol) : Prop where
  inv : ∀ {s}, P.inv s → P'.inv s
  le : ∀ {s s'}, P.le s s' → P'.le s s'

theorem Stricter.allows {P' : Protocol} (hP : P.Stricter P') (h : P.Allows s s') :
    P'.Allows s s' := ⟨hP.le h.le, hP.inv h.inv⟩

/-- The same protocol, which is never given up. -/
def strict (P : Protocol) : Protocol :=
  { P with lost := fun _ => False, not_lost := fun _ h => h, lost_act := fun _ h => h }

theorem strict_stricter (P : Protocol) : P.strict.Stricter P := ⟨fun h => h, fun h => h⟩

end Protocol

namespace Task

variable {t : Task α} {f : α → Task β}

@[simp] theorem pure_eq_done (a : α) : (pure a : Task α) = done a := rfl

@[simp] theorem bind_eq_bind (t : Task α) (f : α → Task β) : t >>= f = t.bind f := rfl

@[simp] theorem done_bind (a : α) (f : α → Task β) : (done a).bind f = f a := rfl

@[simp] theorem bind_assoc {γ : Type} (t : Task α) (f : α → Task β) (g : β → Task γ) :
    (t.bind f).bind g = t.bind fun a => (f a).bind g := by
  induction t with
  | done a => rfl
  | act a next ih => simp only [bind, ih]

theorem run_act (a : Action) (next : a.Answer → Task α) (s : Shared) :
    (act a next).run s = (next (s.act a).1).run (s.act a).2 := rfl

theorem run_bind (t : Task α) (f : α → Task β) (s : Shared) :
    (t.bind f).run s = (f (t.run s).1).run (t.run s).2 := by
  induction t generalizing s with
  | done a => rfl
  | act a next ih => exact ih _ _

/-- The task keeps to the protocol, and its result satisfies `Q` from then on. -/
def Safe (P : Protocol) (Q : α → Shared → Prop) : Task α → Shared → Prop
  | done a, s => ∀ s', P.Allows s s' → Q a s'
  | act a next, s => ∀ s', P.Allows s s' → P.lost (s'.act a).2 ∨
      P.Allows s' (s'.act a).2 ∧ (next (s'.act a).1).Safe P Q (s'.act a).2

variable {Q : α → Shared → Prop} {Q' : β → Shared → Prop}

namespace Safe

/-- Others may do something first. -/
theorem later (h : t.Safe P Q s) (hs : P.le s s') : t.Safe P Q s' := by
  cases t with
  | done a => exact fun s'' hs'' => h s'' ⟨P.trans hs hs''.le, hs''.inv⟩
  | act a next => exact fun s'' hs'' => h s'' ⟨P.trans hs hs''.le, hs''.inv⟩

/-- A result that is safe satisfies `Q` at once. -/
theorem now {a : α} (h : (done a).Safe P Q s) (hs : P.inv s) : Q a s := h s (.refl hs)

/-- A task is safe if it is when it comes to the state. -/
theorem of_allowed (h : ∀ s', P.Allows s s' → t.Safe P Q s') : t.Safe P Q s := by
  cases t with
  | done a => exact fun s' hs' => h s' hs' s' (.refl hs'.inv)
  | act a next => exact fun s' hs' => h s' hs' s' (.refl hs'.inv)

theorem bind (h : t.Safe P Q s)
    (hf : ∀ a s', P.Allows s s' → (done a).Safe P Q s' → (f a).Safe P Q' s') :
    (t.bind f).Safe P Q' s := by
  induction t generalizing s with
  | done a => exact of_allowed fun s' hs' => hf a s' hs' (h.later hs'.le)
  | act a next ih =>
    intro s' hs'
    rcases h s' hs' with hlost | ⟨hact, hnext⟩
    · exact .inl hlost
    · refine .inr ⟨hact, ih _ hnext fun b s'' hs'' hb => ?_⟩
      exact hf b s'' ((hs'.trans hact).trans hs'') hb

theorem imp {Q' : α → Shared → Prop} (h : t.Safe P Q s)
    (hQ : ∀ a s', P.Allows s s' → Q a s' → Q' a s') : t.Safe P Q' s := by
  induction t generalizing s with
  | done a => exact fun s' hs' => hQ a s' hs' (h s' hs')
  | act a next ih =>
    intro s' hs'
    rcases h s' hs' with hlost | ⟨hact, hnext⟩
    · exact .inl hlost
    · refine .inr ⟨hact, ih _ hnext fun b s'' hs'' hb => ?_⟩
      exact hQ b s'' ((hs'.trans hact).trans hs'') hb

/-- What is safe under two protocols gives both results under the stricter one. -/
theorem and {P' : Protocol} {Q' : α → Shared → Prop} (h : t.Safe P Q s) (hP : P.Stricter P')
    (h' : t.Safe P' Q' s) : t.Safe P (fun a s => Q a s ∧ Q' a s) s := by
  induction t generalizing s with
  | done a => exact fun s' hs' => ⟨h s' hs', h' s' (hP.allows hs')⟩
  | act a next ih =>
    intro s' hs'
    rcases h s' hs' with hlost | ⟨hact, hnext⟩
    · exact .inl hlost
    rcases h' s' (hP.allows hs') with hlost | ⟨-, hnext'⟩
    · exact absurd hlost (P'.not_lost (hP.inv hact.inv))
    · exact .inr ⟨hact, ih _ hnext hnext'⟩

/-- One action of a safe task. -/
theorem step (h : t.Safe P Q s) (hs : P.inv s) : P.lost (t.step s).2 ∨
    P.Allows s (t.step s).2 ∧ (t.step s).1.Safe P Q (t.step s).2 := by
  cases t with
  | done a => exact .inr ⟨.refl hs, h⟩
  | act a next => exact h s (.refl hs)

end Safe

theorem lost_run (t : Task α) (h : P.lost s) : P.lost (t.run s).2 := by
  induction t generalizing s with
  | done a => exact h
  | act a next ih => exact ih _ (P.lost_act a h)

/-- A safe task by itself comes to its result, and the result stays what it is. -/
theorem Safe.run (h : t.Safe P Q s) (hs : P.inv s) : P.lost (t.run s).2 ∨
    P.Allows s (t.run s).2 ∧ (done (t.run s).1).Safe P Q (t.run s).2 := by
  induction t generalizing s with
  | done a => exact .inr ⟨.refl hs, h⟩
  | act a next ih =>
    rcases h s (.refl hs) with hlost | ⟨hact, hnext⟩
    · exact .inl (lost_run (next (s.act a).1) hlost)
    · exact (ih _ hnext hact.inv).imp_right (And.imp_left hact.trans)

/-! ## Results that do not depend on the state -/

/-- Whatever a task is told, its result satisfies `Q`. -/
def Always (Q : α → Prop) : Task α → Prop
  | done a => Q a
  | act _ next => ∀ answer, (next answer).Always Q

theorem always_true (t : Task α) : t.Always fun _ => True := by
  induction t with
  | done a => trivial
  | act a next ih => exact ih

theorem Always.bind {Q : α → Prop} {Q' : β → Prop} (h : t.Always Q)
    (hf : ∀ a, Q a → (f a).Always Q') : (t.bind f).Always Q' := by
  induction t with
  | done a => exact hf a h
  | act a next ih => exact fun answer => ih answer (h answer)

theorem Always.run {Q : α → Prop} (h : t.Always Q) (s : Shared) : Q (t.run s).1 := by
  induction t generalizing s with
  | done a => exact h
  | act a next ih => exact ih _ (h _) _

theorem Safe.and_always {R : α → Prop} (h : t.Safe P Q s) (hR : t.Always R) :
    t.Safe P (fun a s => Q a s ∧ R a) s := by
  induction t generalizing s with
  | done a => exact fun s' hs' => ⟨h s' hs', hR⟩
  | act a next ih =>
    intro s' hs'
    exact (h s' hs').imp_right (And.imp_right fun hnext => ih _ hnext (hR _))

end Task

/-! ## Pools -/

namespace Pool

variable {Q : ι → α → Shared → Prop} {l : List ι}

/-- The tasks of a pool are safe, each for what is asked of its result. -/
structure Safe (P : Protocol) (Q : ι → α → Shared → Prop) (l : List ι) (p : Pool α) : Prop where
  inv : P.inv p.shared
  tasks : List.Forall₂ (fun x (t : Task α) => t.Safe P (Q x) p.shared) l p.tasks

/-- Whatever task has its turn, all are safe after it. -/
theorem Safe.turn {p : Pool α} (h : p.Safe P Q l) (k : Nat) : P.lost (p.turn k).shared ∨
    P.Allows p.shared (p.turn k).shared ∧ (p.turn k).Safe P Q l := by
  unfold Pool.turn
  split
  next task hk =>
    obtain ⟨hlength, htasks⟩ := List.forall₂_iff_get.1 h.tasks
    obtain ⟨hk', rfl⟩ := List.getElem?_eq_some_iff.1 hk
    have hown := htasks k (by omega) hk'
    rcases hown.step h.inv with hlost | ⟨hstep, hnext⟩
    · exact .inl hlost
    refine .inr ⟨hstep, hstep.inv, ?_⟩
    refine List.forall₂_iff_get.2 ⟨by simpa using hlength, fun j hj hj' => ?_⟩
    simp only [List.get_eq_getElem, List.getElem_set]
    split
    next heq =>
      subst heq
      exact hnext
    · exact (htasks j hj (by simpa using hj')).later hstep.le
  next => exact .inr ⟨.refl h.inv, h⟩

theorem lost_turn {p : Pool α} (h : P.lost p.shared) (k : Nat) : P.lost (p.turn k).shared := by
  unfold Pool.turn
  split
  next task hk =>
    cases task with
    | done a => exact h
    | act a next => exact P.lost_act a h
  next => exact h

theorem lost_turns {p : Pool α} (h : P.lost p.shared) (schedule : List Nat) :
    P.lost (schedule.foldl Pool.turn p).shared := by
  induction schedule generalizing p with
  | nil => exact h
  | cons k schedule ih => exact ih (lost_turn h k)

theorem Safe.turns {p : Pool α} (h : p.Safe P Q l) (schedule : List Nat) :
    P.lost (schedule.foldl Pool.turn p).shared ∨
      P.Allows p.shared (schedule.foldl Pool.turn p).shared ∧
        (schedule.foldl Pool.turn p).Safe P Q l := by
  induction schedule generalizing p with
  | nil => exact .inr ⟨.refl h.inv, h⟩
  | cons k schedule ih =>
    rcases h.turn k with hlost | ⟨hturn, h⟩
    · exact .inl (lost_turns hlost schedule)
    · exact (ih h).imp_right (And.imp_left hturn.trans)

theorem lost_finish (tasks : List (Task α)) (h : P.lost s) : P.lost (finish tasks s).2 := by
  induction tasks generalizing s with
  | nil => exact h
  | cons t tasks ih => exact ih (t.lost_run h)

theorem finish_safe {tasks : List (Task α)} (hs : P.inv s)
    (h : List.Forall₂ (fun x (t : Task α) => t.Safe P (Q x) s) l tasks) :
    P.lost (finish tasks s).2 ∨ P.Allows s (finish tasks s).2 ∧
      List.Forall₂ (fun x a => Q x a (finish tasks s).2) l (finish tasks s).1 := by
  induction tasks generalizing l s with
  | nil =>
    cases h
    exact .inr ⟨.refl hs, .nil⟩
  | cons t tasks ih =>
    obtain _ | ⟨ht, htasks⟩ := h
    rcases ht.run hs with hlost | ⟨hrun, hdone⟩
    · exact .inl (lost_finish tasks hlost)
    · have hlater := htasks.imp fun _ _ h => h.later hrun.le
      rcases ih hrun.inv hlater with hlost | ⟨hrest, hall⟩
      · exact .inl hlost
      · exact .inr ⟨hrun.trans hrest, .cons (hdone _ hrest) hall⟩

/-- Safe tasks side by side: under every schedule the protocol is kept up or given up, and if it is
kept up then each result is as it was asked for. -/
theorem run_safe {tasks : ι → Task α} (hs : P.inv s) (h : ∀ x ∈ l, (tasks x).Safe P (Q x) s)
    (schedule : List Nat) :
    P.lost (run ⟨l.map tasks, s⟩ schedule).2 ∨
      P.Allows s (run ⟨l.map tasks, s⟩ schedule).2 ∧
        List.Forall₂ (fun x a => Q x a (run ⟨l.map tasks, s⟩ schedule).2) l
          (run ⟨l.map tasks, s⟩ schedule).1 := by
  have hpool : Safe P Q l ⟨l.map tasks, s⟩ :=
    ⟨hs, List.forall₂_map_right_iff.2 (List.forall₂_same.2 h)⟩
  rcases hpool.turns schedule with hlost | ⟨hturns, hsafe⟩
  · exact .inl (lost_finish _ hlost)
  · exact (finish_safe hsafe.inv hsafe.tasks).imp_right (And.imp_left hturns.trans)

end Pool

end MoveTyping
