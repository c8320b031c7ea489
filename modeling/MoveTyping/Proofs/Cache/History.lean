import Mathlib.Data.List.Induction
import MoveTyping.Proofs.Cache.Operations

/-!
# The history of a cache

The past of a cache is the list of the calls that were made to it. What a cache knows about its past
can be told from that list.

## Main definitions

* `Cache.Since` — some call had one property, and no later call had the other.
-/

namespace MoveTyping.Cache

/-- Some of the calls had the property `sets`, and no call after it had the property `resets`. Both
may depend on the cache to which the call was made. -/
def Since (c : Cache) (sets resets : Cache → Call → Prop) (calls : List Call) : Prop :=
  ∃ before call after, calls = before ++ call :: after ∧ sets (c.makeAll before) call ∧
    ∀ later next rest, after = later ++ next :: rest →
      ¬ resets (c.makeAll (before ++ call :: later)) next

variable {c : Cache} {sets resets : Cache → Call → Prop} {calls : List Call} {call : Call}

theorem not_since_nil : ¬ c.Since sets resets [] := by
  rintro ⟨before, call, after, heq, -⟩
  simp at heq

/-- The last call sets it, or it was so before and the last call does not reset it. -/
theorem since_concat_iff : c.Since sets resets (calls ++ [call]) ↔
    sets (c.makeAll calls) call ∨ c.Since sets resets calls ∧ ¬ resets (c.makeAll calls) call := by
  constructor
  · rintro ⟨before, first, after, heq, hset, hkept⟩
    cases after using List.reverseRecOn with
    | nil =>
      obtain ⟨rfl, hcall⟩ := List.append_inj' heq rfl
      obtain rfl : call = first := by simpa using hcall
      exact .inl hset
    | append_singleton after last =>
      rw [← List.cons_append, ← List.append_assoc] at heq
      obtain ⟨rfl, hcall⟩ := List.append_inj' heq rfl
      obtain rfl : call = last := by simpa using hcall
      refine .inr ⟨⟨before, first, after, rfl, hset, fun later next rest hafter => ?_⟩, ?_⟩
      · exact hkept later next (rest ++ [call]) (by rw [hafter]; simp)
      · exact hkept after call [] rfl
  · rintro (hset | ⟨⟨before, first, after, rfl, hset, hkept⟩, hlast⟩)
    · exact ⟨calls, call, [], rfl, hset, fun later next rest h => by simp at h⟩
    · refine ⟨before, first, after ++ [call], by simp, hset, fun later next rest hafter => ?_⟩
      cases rest using List.reverseRecOn with
      | nil =>
        obtain ⟨rfl, hcall⟩ := List.append_inj' hafter rfl
        obtain rfl : call = next := by simpa using hcall
        exact hlast
      | append_singleton rest last =>
        rw [← List.cons_append, ← List.append_assoc] at hafter
        exact hkept later next rest (List.append_inj' hafter rfl).1

/-- What every call either sets or keeps, unless it resets it, has been set and not reset since. -/
theorem makeAll_iff_since {P : Cache → Prop} (hinit : ¬ P c)
    (hstep : ∀ before call, P ((c.makeAll before).make call) ↔
      sets (c.makeAll before) call ∨ P (c.makeAll before) ∧ ¬ resets (c.makeAll before) call) :
    P (c.makeAll calls) ↔ c.Since sets resets calls := by
  induction calls using List.reverseRecOn with
  | nil => exact iff_of_false hinit not_since_nil
  | append_singleton calls call ih =>
    rw [since_concat_iff, ← ih, makeAll_append]
    exact hstep calls call

end MoveTyping.Cache
