import Mathlib.Data.List.Forall2

/-!
# Lists related element by element

What is known of the elements of two lists that are related one by one, as the requests of a run and
its answers are.
-/

namespace MoveTyping

variable {α β : Type} {R : α → β → Prop} {l : List α} {l' : List β}

/-- What is in the second list belongs to something in the first one. -/
theorem exists_of_mem_forall₂ (h : List.Forall₂ R l l') {b : β} (hb : b ∈ l') :
    ∃ a ∈ l, R a b := by
  induction h with
  | nil => cases hb
  | cons hab _ ih =>
    rcases List.mem_cons.1 hb with rfl | hb
    · exact ⟨_, List.mem_cons_self, hab⟩
    · obtain ⟨a, ha, hab⟩ := ih hb
      exact ⟨a, List.mem_cons_of_mem _ ha, hab⟩

/-- If each element determines what belongs to it, the second list is an image of the first. -/
theorem eq_map_of_forall₂ {f : α → β} (h : List.Forall₂ R l l')
    (hf : ∀ a ∈ l, ∀ b, R a b → b = f a) : l' = l.map f := by
  induction h with
  | nil => rfl
  | cons hab _ ih =>
    rw [hf _ List.mem_cons_self _ hab, ih fun a ha => hf a (List.mem_cons_of_mem _ ha)]
    rfl

end MoveTyping
