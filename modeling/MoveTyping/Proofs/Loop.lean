/-!
# Loops

A loop is given by its round: from a state the round either ends the loop with a result or goes on
with another state. Nothing bounds the number of rounds, so a loop may go on for ever; that one ends
is something to prove.

## Main definitions

* `Loop.after` — what a loop has come to after some rounds.
* `Loop.Ends`, `Loop.Reaches` — the results and the states that a loop comes to.
-/

namespace MoveTyping

/-- The round of a loop: a result, or the state to go on with. -/
abbrev Loop (σ ρ : Type) := σ → ρ ⊕ σ

namespace Loop

variable {σ ρ : Type} {loop : Loop σ ρ} {s s' s'' : σ} {r : ρ}

/-- What the loop has come to after at most `k` rounds. -/
def after (loop : Loop σ ρ) : (k : Nat) → σ → ρ ⊕ σ
  | 0, s => .inr s
  | k + 1, s =>
    match loop s with
    | .inl r => .inl r
    | .inr s' => after loop k s'

/-- The loop ends after finitely many rounds, with this result. -/
def Ends (loop : Loop σ ρ) (s : σ) (r : ρ) : Prop := ∃ k, loop.after k s = .inl r

/-- The loop comes to a state after finitely many rounds. -/
def Reaches (loop : Loop σ ρ) (s s' : σ) : Prop := ∃ k, loop.after k s = .inr s'

theorem after_succ_of_inr (h : loop s = .inr s') (k : Nat) :
    loop.after (k + 1) s = loop.after k s' := by
  simp only [after, h]

theorem after_succ_of_inl (h : loop s = .inl r) (k : Nat) : loop.after (k + 1) s = .inl r := by
  simp only [after, h]

theorem Ends.stop (h : loop s = .inl r) : loop.Ends s r := ⟨1, after_succ_of_inl h 0⟩

theorem Ends.next (h : loop s = .inr s') (hr : loop.Ends s' r) : loop.Ends s r := by
  obtain ⟨k, hk⟩ := hr
  exact ⟨k + 1, (after_succ_of_inr h k).trans hk⟩

/-- A loop ends with one result only. -/
theorem Ends.unique {r' : ρ} (h : loop.Ends s r) (h' : loop.Ends s r') : r = r' := by
  obtain ⟨k, hk⟩ := h
  obtain ⟨k', hk'⟩ := h'
  induction k generalizing s k' with
  | zero => simp [after] at hk
  | succ k ih =>
    cases k' with
    | zero => simp [after] at hk'
    | succ k' =>
      cases hs : loop s with
      | inl r'' =>
        rw [after_succ_of_inl hs] at hk hk'
        exact Sum.inl.inj (hk.symm.trans hk')
      | inr s'' =>
        rw [after_succ_of_inr hs] at hk hk'
        exact ih hk k' hk'

theorem Reaches.refl (loop : Loop σ ρ) (s : σ) : loop.Reaches s s := ⟨0, rfl⟩

theorem Reaches.next (h : loop s = .inr s') (hr : loop.Reaches s' s'') : loop.Reaches s s'' := by
  obtain ⟨k, hk⟩ := hr
  exact ⟨k + 1, (after_succ_of_inr h k).trans hk⟩

/-- A state that is reached is reached by its rounds one after the other. -/
theorem Reaches.head_induction {motive : σ → Prop} (h : loop.Reaches s s') (last : motive s')
    (first : ∀ {u v}, loop u = .inr v → motive v → motive u) : motive s := by
  obtain ⟨k, hk⟩ := h
  induction k generalizing s with
  | zero => exact Sum.inr.inj hk ▸ last
  | succ k ih =>
    cases hs : loop s with
    | inl r => simp [after_succ_of_inl hs] at hk
    | inr v =>
      rw [after_succ_of_inr hs] at hk
      exact first hs (ih hk)

theorem Reaches.trans (h : loop.Reaches s s') (h' : loop.Reaches s' s'') : loop.Reaches s s'' :=
  h.head_induction (motive := (loop.Reaches · s'')) h' .next

theorem Reaches.ends (h : loop.Reaches s s') (h' : loop.Ends s' r) : loop.Ends s r :=
  h.head_induction (motive := (loop.Ends · r)) h' .next

/-- What every round keeps holds of every state that the loop comes to. -/
theorem Reaches.invariant {P : σ → Prop} (hround : ∀ {u v}, P u → loop u = .inr v → P v)
    (h : loop.Reaches s s') (hs : P s) : P s' :=
  h.head_induction (motive := fun u => P u → P s') id
    (fun huv hv hu => hv (hround hu huv)) hs

end Loop

end MoveTyping
