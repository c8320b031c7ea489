import Mathlib.Data.Finset.Card
import Mathlib.Data.Finset.Dedup
import MoveTyping.Interner

/-!
# Interned texts and their symbols

A call gives its text a symbol and changes the symbol of no other text. So after any calls a symbol
still stands for the text it was given for, and two calls have the same answer exactly when they
have the same text.

An interner keeps two tables in each shard and reads the fixed symbols off neither of them. What
makes them agree is kept by every call: the tables of a shard mirror each other, no slot exceeds the
bits of a symbol, and the first slots of shard zero hold the well-known texts.

## Main definitions

* `Interner.internAll` — calls one after the other.
* `Interner.Consistent` — what every call keeps.
* `Interner.Fits` — no shard is asked to hold more texts than it has slots.
* `Interner.Faithful` — what answers and table say about each other after some calls.

## Main results

* `Interner.get?_of_intern?` — the table after a call.
* `Interner.isSome_internAll_iff` — when all calls have an answer.
* `Interner.internAll_faithful` — symbols and texts correspond one to one, for good.
-/

namespace MoveTyping

/-! ## Packing -/

namespace Symbol

variable {shard slot : Nat}

theorem raw_pack (h : slot < shardCapacity) :
    (pack shard slot).raw = shard * shardCapacity + slot := by
  have hor : shard <<< slotBits + slot = shard <<< slotBits ||| slot :=
    Nat.shiftLeft_add_eq_or_of_lt h shard
  change shard <<< slotBits ||| slot = _
  rw [← hor, Nat.shiftLeft_eq]
  rfl

theorem shard_pack (h : slot < shardCapacity) : (pack shard slot).shard = shard := by
  have hpow : shardCapacity = 2 ^ slotBits := rfl
  rw [Symbol.shard, raw_pack h, Nat.shiftRight_eq_div_pow, ← hpow]
  have hpos : 0 < shardCapacity := by omega
  rw [Nat.mul_comm, Nat.mul_add_div hpos, Nat.div_eq_of_lt h, Nat.add_zero]

theorem slot_pack (h : slot < shardCapacity) : (pack shard slot).slot = slot := by
  have hpow : shardCapacity = 2 ^ slotBits := rfl
  rw [Symbol.slot, raw_pack h, hpow, Nat.and_two_pow_sub_one_eq_mod, ← hpow,
    Nat.mul_add_mod_self_right, Nat.mod_eq_of_lt h]

/-- A shard and a slot fit into a word of 32 bits. -/
theorem raw_pack_lt (hshard : shard < shardCount) (h : slot < shardCapacity) :
    (pack shard slot).raw < UInt32.size := by
  have hcapacity : shardCapacity = 2 ^ 28 := rfl
  have hcount : shardCount = 16 := rfl
  have hword : UInt32.size = 2 ^ 32 := rfl
  rw [raw_pack h, hcapacity, hword]
  omega

end Symbol

theorem nodup_wellKnown : wellKnown.Nodup := by decide

/-! ## The two tables of a shard -/

namespace Shard

variable {s : Shard} {text : String} {texts : List String}

/-- A text has a slot exactly when the slot has the text. -/
def Mirrored (s : Shard) : Prop :=
  ∀ text slot, s.slots.get? text = some slot ↔ s.texts[slot]? = some text

theorem mirrored_empty : empty.Mirrored := by
  intro text slot
  simp [empty]

theorem Mirrored.push (h : s.Mirrored) (hnew : s.slots.get? text = none) :
    (s.push text).Mirrored := by
  intro text' slot
  have hold := h text' slot
  have hsame := h text slot
  simp only [Shard.push, Table.get?_insert, Array.getElem?_push]
  grind

theorem Mirrored.foldl_push (h : s.Mirrored) (hnodup : texts.Nodup)
    (hnew : ∀ text ∈ texts, s.slots.get? text = none) :
    (texts.foldl Shard.push s).Mirrored := by
  induction texts generalizing s with
  | nil => exact h
  | cons text texts ih =>
    obtain ⟨hnotMem, hnodup⟩ := List.nodup_cons.1 hnodup
    obtain ⟨htext, hnew⟩ := List.forall_mem_cons.1 hnew
    refine ih (h.push htext) hnodup fun other hother => ?_
    have hne : other ≠ text := fun heq => hnotMem (heq ▸ hother)
    simp only [Shard.push, Table.get?_insert, if_neg hne, hnew other hother]

theorem texts_foldl_push (s : Shard) (texts : List String) :
    (texts.foldl push s).texts = s.texts ++ texts.toArray := by
  induction texts generalizing s with
  | nil => simp
  | cons text texts ih =>
    rw [List.foldl_cons, ih]
    simp [Shard.push]

theorem mirrored_preloaded : preloaded.Mirrored :=
  mirrored_empty.foldl_push nodup_wellKnown fun _ _ => rfl

theorem texts_preloaded : preloaded.texts = wellKnown.toArray := by
  rw [preloaded, texts_foldl_push]
  rfl

end Shard

namespace Interner

variable {i j : Interner} {text other : String} {s : Symbol} {texts : List String}
  {symbols : List Symbol} {k : Fin Symbol.shardCount}

/-! ## Consistent interners -/

/-- What every call keeps. -/
structure Consistent (i : Interner) : Prop where
  mirrored : ∀ k : Fin Symbol.shardCount, (i.shard k).Mirrored
  size_le : ∀ k : Fin Symbol.shardCount, (i.shard k).texts.size ≤ Symbol.shardCapacity
  wellKnown : ∀ (k : Fin Symbol.shardCount) (slot : Nat) (text : String), k.val = 0 →
    wellKnown[slot]? = some text → (i.shard k).texts[slot]? = some text

theorem shard_initial (k : Fin Symbol.shardCount) :
    initial.shard k = if k.val = 0 then .preloaded else .empty := by
  simp only [initial, shard, Fin.getElem_fin, Vector.getElem_set, Vector.getElem_replicate]
  grind

theorem consistent_initial : initial.Consistent := by
  constructor
  · intro k
    rw [shard_initial]
    split
    · exact Shard.mirrored_preloaded
    · exact Shard.mirrored_empty
  · intro k
    rw [shard_initial]
    split
    · rw [Shard.texts_preloaded]
      decide
    · exact Nat.zero_le _
  · intro k slot text hk htext
    rw [shard_initial, if_pos hk, Shard.texts_preloaded]
    simpa using htext

theorem Consistent.slot_lt (hi : i.Consistent) {slot : Nat}
    (h : (i.shard k).texts[slot]? = some text) : slot < Symbol.shardCapacity :=
  Nat.lt_of_lt_of_le (Array.getElem?_eq_some_iff.1 h).1 (hi.size_le k)

/-- A symbol stands for the text in its slot. The fixed symbols do so too, although their texts are
not read off the table. -/
theorem Consistent.text_pack (hi : i.Consistent) {slot : Nat}
    (h : (i.shard k).texts[slot]? = some text) : i.text (.pack k slot) = text := by
  have hshard : (Symbol.pack k slot).shard = k := Symbol.shard_pack (hi.slot_lt h)
  have hslot : (Symbol.pack k slot).slot = slot := Symbol.slot_pack (hi.slot_lt h)
  unfold Interner.text
  cases hfixed : (Symbol.pack k slot).wellKnown? with
  | some fixed =>
    rw [Symbol.wellKnown?, hshard, hslot] at hfixed
    split at hfixed
    next hzero => exact Option.some.inj ((hi.wellKnown k slot fixed hzero hfixed).symm.trans h)
    next => cases hfixed
  | none =>
    have hstored : i.shards[k.val].texts[slot]? = some text := h
    simp [hshard, hslot, hstored]

/-- A text is in the slot that its symbol names. -/
theorem Consistent.stored_of_get? (hi : i.Consistent) (h : i.get? text = some s) :
    ∃ (k : Fin Symbol.shardCount) (slot : Nat), s = .pack k slot ∧
      (i.shard k).texts[slot]? = some text := by
  unfold get? at h
  cases hknown : MoveTyping.wellKnown.idxOf? text with
  | some slot =>
    rw [hknown] at h
    obtain ⟨hlt, htext, -⟩ := List.idxOf?_eq_some_iff.1 hknown
    have hfixed : MoveTyping.wellKnown[slot]? = some text := htext ▸ List.getElem?_eq_getElem hlt
    obtain ⟨k, hk⟩ : ∃ k : Fin Symbol.shardCount, k.val = 0 := ⟨⟨0, by decide⟩, rfl⟩
    exact ⟨k, slot, hk ▸ (Option.some.inj h).symm, hi.wellKnown k slot text hk hfixed⟩
  | none =>
    rw [hknown] at h
    obtain ⟨slot, hslot, rfl⟩ := Option.map_eq_some_iff.1 h
    exact ⟨shardOf text, slot, rfl, (hi.mirrored _ text slot).1 hslot⟩

/-- A symbol stands for the text that has it. -/
theorem Consistent.text_of_get? (hi : i.Consistent) (h : i.get? text = some s) :
    i.text s = text := by
  obtain ⟨k, slot, rfl, hstored⟩ := hi.stored_of_get? h
  exact hi.text_pack hstored

theorem Consistent.raw_lt_of_get? (hi : i.Consistent) (h : i.get? text = some s) :
    s.raw < UInt32.size := by
  obtain ⟨k, slot, rfl, hstored⟩ := hi.stored_of_get? h
  exact Symbol.raw_pack_lt k.isLt (hi.slot_lt hstored)

/-! ## One call -/

theorem get?_of_mem_wellKnown (h : text ∈ wellKnown) (i j : Interner) :
    ∃ s, i.get? text = some s ∧ j.get? text = some s := by
  cases hknown : wellKnown.idxOf? text with
  | none => exact absurd h (List.idxOf?_eq_none_iff.1 hknown)
  | some slot => exact ⟨.pack 0 slot, by simp [get?, hknown], by simp [get?, hknown]⟩

theorem get?_of_notMem_wellKnown (h : text ∉ wellKnown) (i : Interner) :
    i.get? text =
      ((i.shard (shardOf text)).slots.get? text).map (.pack (shardOf text)) := by
  rw [get?, List.idxOf?_eq_none_iff.2 h]

theorem notMem_wellKnown_of_get? (h : i.get? text = none) : text ∉ wellKnown := by
  intro hmem
  obtain ⟨s, hs, -⟩ := get?_of_mem_wellKnown hmem i i
  simp [h] at hs

theorem shard_add (i : Interner) (text : String) (k : Fin Symbol.shardCount) :
    (i.add text).shard k = if k = shardOf text then (i.shard k).push text else i.shard k := by
  simp only [add, shard, Fin.getElem_fin, Vector.getElem_set]
  by_cases hk : k = shardOf text
  · simp [hk]
  · simp [hk, Ne.symm (Fin.val_ne_of_ne hk)]

/-- A new text gets the next slot of its shard, and the other texts keep what they have. -/
theorem get?_add (hnew : i.get? text = none) (other : String) :
    (i.add text).get? other =
      if other = text then some (.pack (shardOf text) (i.shard (shardOf text)).texts.size)
      else i.get? other := by
  have htext := notMem_wellKnown_of_get? hnew
  by_cases hother : other ∈ wellKnown
  · have hne : other ≠ text := fun heq => htext (heq ▸ hother)
    obtain ⟨s, hs, hs'⟩ := get?_of_mem_wellKnown hother i (i.add text)
    rw [if_neg hne, hs, hs']
  · rw [get?_of_notMem_wellKnown hother, get?_of_notMem_wellKnown hother, shard_add]
    by_cases heq : other = text
    · simp [heq, Shard.push]
    · by_cases hshard : shardOf other = shardOf text
      · simp [heq, hshard, Shard.push, Table.get?_insert]
      · simp [heq, hshard]

theorem Consistent.add (hi : i.Consistent) (hnew : i.get? text = none)
    (hroom : (i.shard (shardOf text)).texts.size < Symbol.shardCapacity) :
    (i.add text).Consistent := by
  have htext := notMem_wellKnown_of_get? hnew
  rw [get?_of_notMem_wellKnown htext, Option.map_eq_none_iff] at hnew
  constructor
  · intro k
    rw [shard_add]
    split
    next hk => exact (hi.mirrored k).push (hk ▸ hnew)
    next => exact hi.mirrored k
  · intro k
    have hle := hi.size_le k
    rw [shard_add]
    split
    next hk =>
      subst hk
      simp only [Shard.push, Array.size_push]
      omega
    next => exact hle
  · intro k slot fixed hk hfixed
    have hold := hi.wellKnown k slot fixed hk hfixed
    have hlt := (Array.getElem?_eq_some_iff.1 hold).1
    rw [shard_add]
    split
    next => rw [Shard.push, Array.getElem?_push, if_neg (Nat.ne_of_lt hlt), hold]
    next => exact hold

theorem intern?_of_get? (h : i.get? text = some s) : i.intern? text = some (s, i) := by
  rw [Interner.intern?, h]

/-- A call finds its text, or adds it where there is room. -/
theorem intern?_cases (h : i.intern? text = some (s, j)) :
    (i.get? text = some s ∧ j = i) ∨
      (i.get? text = none ∧ (i.shard (shardOf text)).texts.size < Symbol.shardCapacity ∧
        s = .pack (shardOf text) (i.shard (shardOf text)).texts.size ∧ j = i.add text) := by
  unfold intern? at h
  cases hget : i.get? text with
  | some s' =>
    simp only [hget, Option.some.injEq, Prod.mk.injEq] at h
    exact .inl ⟨congrArg some h.1, h.2.symm⟩
  | none =>
    simp only [hget] at h
    split at h
    next hroom =>
      simp only [Option.some.injEq, Prod.mk.injEq] at h
      exact .inr ⟨rfl, hroom, h.1.symm, h.2.symm⟩
    next => cases h

theorem Consistent.intern? (hi : i.Consistent) (h : i.intern? text = some (s, j)) :
    j.Consistent := by
  obtain ⟨-, rfl⟩ | ⟨hnew, hroom, -, rfl⟩ := intern?_cases h
  · exact hi
  · exact hi.add hnew hroom

/-- After a call its text has the answer as its symbol, and the other texts have what they had. -/
theorem get?_of_intern? (h : i.intern? text = some (s, j)) (other : String) :
    j.get? other = if other = text then some s else i.get? other := by
  obtain ⟨hget, rfl⟩ | ⟨hnew, -, rfl, rfl⟩ := intern?_cases h
  · split
    next heq => rw [heq, hget]
    next => rfl
  · exact get?_add hnew other

/-! ## Calls one after the other -/

/-- Interns texts one after the other. -/
def internAll (i : Interner) : List String → Option (List Symbol × Interner)
  | [] => some ([], i)
  | text :: texts =>
    (i.intern? text).bind fun call =>
      (call.2.internAll texts).map fun run => (call.1 :: run.1, run.2)

theorem internAll_cons_eq_some_iff :
    i.internAll (text :: texts) = some (symbols, j) ↔
      ∃ s next rest, i.intern? text = some (s, next) ∧
        next.internAll texts = some (rest, j) ∧ symbols = s :: rest := by
  simp only [internAll, Option.bind_eq_some_iff, Option.map_eq_some_iff, Prod.exists,
    Prod.mk.injEq]
  grind

theorem Consistent.internAll (hi : i.Consistent) (h : i.internAll texts = some (symbols, j)) :
    j.Consistent := by
  induction texts generalizing i symbols with
  | nil =>
    cases h
    exact hi
  | cons text texts ih =>
    obtain ⟨s, next, rest, hcall, hrest, -⟩ := internAll_cons_eq_some_iff.1 h
    exact ih (hi.intern? hcall) hrest

/-- No call takes a symbol away from a text. -/
theorem get?_of_internAll (h : i.internAll texts = some (symbols, j))
    (hget : i.get? text = some s) : j.get? text = some s := by
  induction texts generalizing i symbols with
  | nil =>
    cases h
    exact hget
  | cons called texts ih =>
    obtain ⟨s', next, rest, hcall, hrest, -⟩ := internAll_cons_eq_some_iff.1 h
    refine ih hrest ?_
    rw [get?_of_intern? hcall]
    split
    next heq =>
      obtain ⟨hcalled, -⟩ | ⟨hnew, -⟩ := intern?_cases hcall
      · rw [← hcalled, ← heq, hget]
      · simp [← heq, hget] at hnew
    next => exact hget

/-- The answers are the symbols that the texts have in the end. -/
theorem map_get?_of_internAll (h : i.internAll texts = some (symbols, j)) :
    texts.map j.get? = symbols.map some := by
  induction texts generalizing i symbols with
  | nil =>
    cases h
    rfl
  | cons text texts ih =>
    obtain ⟨s, next, rest, hcall, hrest, rfl⟩ := internAll_cons_eq_some_iff.1 h
    have hself : next.get? text = some s := by simp [get?_of_intern? hcall]
    rw [List.map_cons, List.map_cons, ih hrest, get?_of_internAll hrest hself]

/-- In the end every answer stands for the text of its call. -/
theorem map_text_of_internAll (hi : i.Consistent) (h : i.internAll texts = some (symbols, j)) :
    symbols.map j.text = texts := by
  induction texts generalizing i symbols with
  | nil =>
    cases h
    rfl
  | cons text texts ih =>
    have hj := hi.internAll h
    have hfound := map_get?_of_internAll h
    obtain ⟨s, next, rest, hcall, hrest, rfl⟩ := internAll_cons_eq_some_iff.1 h
    have hself : j.get? text = some s := (List.cons.inj hfound).1
    rw [List.map_cons, hj.text_of_get? hself, ih (hi.intern? hcall) hrest]

/-- In the end exactly those texts have a symbol that had one before or were interned. -/
theorem get?_eq_none_iff_of_internAll (h : i.internAll texts = some (symbols, j)) :
    j.get? other = none ↔ i.get? other = none ∧ other ∉ texts := by
  induction texts generalizing i symbols with
  | nil =>
    cases h
    simp
  | cons text texts ih =>
    obtain ⟨s, next, rest, hcall, hrest, -⟩ := internAll_cons_eq_some_iff.1 h
    rw [ih hrest, get?_of_intern? hcall]
    by_cases heq : other = text
    · simp [heq]
    · simp [heq]

/-- The first calls of a run are a run with the first answers. -/
theorem internAll_take (h : i.internAll texts = some (symbols, j)) (n : Nat) :
    ∃ m, i.internAll (texts.take n) = some (symbols.take n, m) := by
  induction texts generalizing i symbols n with
  | nil =>
    cases h
    exact ⟨j, by simp [internAll]⟩
  | cons text texts ih =>
    obtain ⟨s, next, rest, hcall, hrest, rfl⟩ := internAll_cons_eq_some_iff.1 h
    cases n with
    | zero => exact ⟨i, rfl⟩
    | succ n =>
      obtain ⟨m, hm⟩ := ih hrest n
      exact ⟨m, internAll_cons_eq_some_iff.2 ⟨s, next, _, hcall, hm, rfl⟩⟩

/-! ## How many texts there are -/

/-- Those of the texts that have no symbol yet. -/
def fresh (i : Interner) (texts : List String) : Finset String :=
  texts.toFinset.filter fun text => i.get? text = none

theorem fresh_cons_of_some (h : i.get? text = some s) (texts : List String) :
    i.fresh (text :: texts) = i.fresh texts := by
  rw [fresh, List.toFinset_cons, Finset.filter_insert, if_neg (by simp [h]), fresh]

theorem fresh_cons_of_none (h : i.get? text = none) (texts : List String) :
    i.fresh (text :: texts) = insert text ((i.add text).fresh texts) := by
  ext other
  simp only [fresh, Finset.mem_filter, Finset.mem_insert, List.mem_toFinset, List.mem_cons,
    get?_add h]
  by_cases heq : other = text
  · simp [heq, h]
  · simp [heq]

theorem notMem_fresh_add (h : i.get? text = none) (texts : List String) :
    text ∉ (i.add text).fresh texts := by
  simp [fresh, get?_add h]

/-- How many texts a shard holds after all of `texts` are interned. -/
def demand (i : Interner) (texts : List String) (k : Fin Symbol.shardCount) : Nat :=
  (i.shard k).texts.size + ((i.fresh texts).filter (shardOf · = k)).card

theorem demand_cons_of_some (h : i.get? text = some s) (texts : List String) :
    i.demand (text :: texts) = i.demand texts := by
  funext k
  rw [demand, fresh_cons_of_some h, demand]

theorem demand_cons_of_none (h : i.get? text = none) (texts : List String) :
    i.demand (text :: texts) = (i.add text).demand texts := by
  funext k
  have hnotMem := notMem_fresh_add h texts
  rw [demand, demand, fresh_cons_of_none h, Finset.filter_insert, shard_add]
  by_cases hk : shardOf text = k
  · rw [if_pos hk, if_pos hk.symm, Finset.card_insert_of_notMem (by simp [hnotMem])]
    simp only [Shard.push, Array.size_push]
    omega
  · rw [if_neg hk, if_neg (Ne.symm hk)]

/-- All calls have an answer exactly when no shard has to hold more texts than it has slots. -/
theorem isSome_internAll_iff (hi : i.Consistent) :
    (i.internAll texts).isSome = true ↔ ∀ k, i.demand texts k ≤ Symbol.shardCapacity := by
  induction texts generalizing i with
  | nil => simpa [internAll, demand, fresh] using hi.size_le
  | cons text texts ih =>
    cases hget : i.get? text with
    | some s =>
      rw [demand_cons_of_some hget, ← ih hi]
      simp [internAll, intern?_of_get? hget]
    | none =>
      by_cases hroom : (i.shard (shardOf text)).texts.size < Symbol.shardCapacity
      · have hcall : i.intern? text =
            some (.pack (shardOf text) (i.shard (shardOf text)).texts.size, i.add text) := by
          simp only [Interner.intern?, hget, if_pos hroom]
        rw [demand_cons_of_none hget, ← ih (hi.add hget hroom)]
        simp [internAll, hcall]
      · have hcall : i.intern? text = none := by
          simp only [Interner.intern?, hget, if_neg hroom]
        simp only [internAll, hcall, Option.bind_none, Option.isSome_none, Bool.false_eq_true,
          false_iff, not_forall]
        refine ⟨shardOf text, ?_⟩
        -- the shard holds its capacity already, and then `text`
        rw [demand_cons_of_none hget, demand, shard_add, if_pos rfl]
        simp only [Shard.push, Array.size_push]
        omega

/-- The count goes up by the number of different texts that had no symbol. -/
theorem size_of_internAll (h : i.internAll texts = some (symbols, j)) :
    j.size = i.size + (i.fresh texts).card := by
  induction texts generalizing i symbols with
  | nil =>
    cases h
    simp [fresh]
  | cons text texts ih =>
    obtain ⟨s, next, rest, hcall, hrest, -⟩ := internAll_cons_eq_some_iff.1 h
    have hsize := ih hrest
    obtain ⟨hget, rfl⟩ | ⟨hnew, -, -, rfl⟩ := intern?_cases hcall
    · rw [hsize, fresh_cons_of_some hget]
    · rw [hsize, fresh_cons_of_none hnew, Finset.card_insert_of_notMem (notMem_fresh_add hnew texts)]
      simp only [add]
      omega

/-! ## Calls on the initial interner -/

/-- The different texts among these that are not well-known. -/
def newTexts (texts : List String) : Finset String := texts.toFinset \ wellKnown.toFinset

/-- No shard is asked to hold more texts than it has slots. The well-known texts are in shard
zero from the start. -/
def Fits (texts : List String) : Prop :=
  ∀ k : Fin Symbol.shardCount, (if k.val = 0 then wellKnown.length else 0) +
    ((newTexts texts).filter (shardOf · = k)).card ≤ Symbol.shardCapacity

instance (texts : List String) : Decidable (Fits texts) :=
  inferInstanceAs (Decidable (∀ _ : Fin _, _))

theorem get?_initial_eq_none_iff : initial.get? text = none ↔ text ∉ wellKnown := by
  refine ⟨notMem_wellKnown_of_get?, fun h => ?_⟩
  rw [get?_of_notMem_wellKnown h, Option.map_eq_none_iff, Option.eq_none_iff_forall_ne_some]
  intro slot hslot
  have htext := (consistent_initial.mirrored _ text slot).1 hslot
  rw [shard_initial] at htext
  split at htext
  · rw [Shard.texts_preloaded, List.getElem?_toArray] at htext
    exact h (List.mem_of_getElem? htext)
  · simp [Shard.empty] at htext

theorem fresh_initial (texts : List String) : initial.fresh texts = newTexts texts := by
  ext text
  simp [fresh, newTexts, get?_initial_eq_none_iff]

theorem fits_iff : Fits texts ↔ ∀ k, initial.demand texts k ≤ Symbol.shardCapacity := by
  refine forall_congr' fun k => ?_
  have hsize : (initial.shard k).texts.size = if k.val = 0 then wellKnown.length else 0 := by
    rw [shard_initial]
    split
    · rw [Shard.texts_preloaded, List.size_toArray]
    · rfl
  rw [demand, hsize, fresh_initial]

/-- What holds after the texts were interned one after the other, with these answers. -/
structure Faithful (texts : List String) (symbols : List Symbol) (i : Interner) : Prop where
  /-- Every symbol stands for the text it was given for. -/
  text : symbols.map i.text = texts
  /-- Two calls, however far apart, have the same answer exactly when they have the same text. -/
  eq_iff : ∀ m n : Nat, symbols[m]? = symbols[n]? ↔ texts[m]? = texts[n]?
  /-- Looking for a text gives what interning it gave. -/
  found : texts.map i.get? = symbols.map some
  /-- Looking for a text gives what interning it would give, if it is well-known or was interned,
  and nothing otherwise. -/
  get?_eq : ∀ text, i.get? text =
    if text ∈ wellKnown ∨ text ∈ texts then (i.intern? text).map Prod.fst else none
  size : i.size = 28 + (newTexts texts).card
  /-- The symbols fit into words of 32 bits. -/
  word : ∀ s ∈ symbols, s.raw < UInt32.size

theorem get?_eq_ite_of_internAll (h : initial.internAll texts = some (symbols, i)) :
    i.get? text =
      if text ∈ wellKnown ∨ text ∈ texts then (i.intern? text).map Prod.fst else none := by
  have hnone : i.get? text = none ↔ text ∉ wellKnown ∧ text ∉ texts := by
    rw [get?_eq_none_iff_of_internAll h, get?_initial_eq_none_iff]
  cases hs : i.get? text with
  | none => rw [if_neg (by tauto)]
  | some s =>
    have hknown : text ∈ wellKnown ∨ text ∈ texts := by
      by_contra hnew
      exact absurd (hnone.2 (not_or.1 hnew)) (by simp [hs])
    rw [if_pos hknown, intern?_of_get? hs]
    rfl

theorem faithful_of_internAll (h : initial.internAll texts = some (symbols, i)) :
    Faithful texts symbols i := by
  have htext := map_text_of_internAll consistent_initial h
  have hfound := map_get?_of_internAll h
  refine ⟨htext, fun m n => ⟨fun heq => ?_, fun heq => ?_⟩, hfound,
    fun _ => get?_eq_ite_of_internAll h, ?_, fun s hs => ?_⟩
  · rw [← htext, List.getElem?_map, List.getElem?_map, heq]
  · have hsome : (symbols.map some)[m]? = (symbols.map some)[n]? := by
      rw [← hfound, List.getElem?_map, List.getElem?_map, heq]
    rw [List.getElem?_map, List.getElem?_map] at hsome
    exact Option.map_injective (Option.some_injective _) hsome
  · rw [size_of_internAll h, fresh_initial]
    rfl
  · obtain ⟨text, -, hget⟩ := List.mem_map.1 (hfound ▸ List.mem_map_of_mem hs)
    exact (consistent_initial.internAll h).raw_lt_of_get? hget

/-- For every sequence of texts, interning them one after the other succeeds exactly when no shard
is asked to hold more texts than it has slots. Then symbols and texts correspond one to one: every
symbol stands for its text, right after the call and after all later ones, two calls have the same
answer exactly when they have the same text, a text is found exactly when it is well-known or was
interned, and the texts are counted. -/
theorem internAll_faithful (texts : List String) :
    ((∃ run, initial.internAll texts = some run) ↔ Fits texts) ∧
      ∀ symbols i, initial.internAll texts = some (symbols, i) →
        Faithful texts symbols i ∧
          ∀ n, ∃ j, initial.internAll (texts.take n) = some (symbols.take n, j) ∧
            Faithful (texts.take n) (symbols.take n) j := by
  refine ⟨?_, fun symbols i h => ⟨faithful_of_internAll h, fun n => ?_⟩⟩
  · rw [fits_iff, ← isSome_internAll_iff consistent_initial, Option.isSome_iff_exists]
  · obtain ⟨j, hj⟩ := internAll_take h n
    exact ⟨j, hj, faithful_of_internAll hj⟩

/-- The text `p` falls into shard zero and comes after the well-known ones there; the well-known
`vector` would fall into another shard. -/
theorem internAll_faithful_shared :
    let texts := ["p", "vector", "Coin", "a", "p"]
    let symbols := [Symbol.pack 0 28, .pack 0 1, .pack 1 0, .pack 1 1, .pack 0 28]
    Fits texts ∧ ∃ i, initial.internAll texts = some (symbols, i) ∧ Faithful texts symbols i ∧
      i.size = 31 := by
  intro texts symbols
  have hfits : Fits texts := by decide +kernel
  have hsymbols : (initial.internAll texts).map Prod.fst = some symbols := by decide +kernel
  obtain ⟨hanswered, hfaithful⟩ := internAll_faithful texts
  obtain ⟨⟨answers, i⟩, hrun⟩ := hanswered.2 hfits
  obtain rfl : answers = symbols := by simpa [hrun] using hsymbols
  have h := (hfaithful _ i hrun).1
  have hcount : (newTexts texts).card = 3 := by decide +kernel
  exact ⟨hfits, i, hrun, h, by rw [h.size, hcount]⟩

end Interner

end MoveTyping
