import Mathlib.Data.List.TakeDrop
import Mathlib.Data.List.TakeWhile
import MoveTyping.Literal

/-!
# Decimal integers

Which literals are decimal integers without a suffix, said by their characters alone. They are the
literals of type `u64` that do not spell this type.

## Main definitions

* `Literal.Decimal` — a digit, then digits and underscores.
-/

namespace MoveTyping

theorem Prim.render_of_ofSuffix? {text : String} {kind : Prim} (h : ofSuffix? text = some kind) :
    kind.render = text := by
  simpa using List.find?_some h

namespace Literal

variable {p : Char → Bool} {cs digits suffix : List Char} {text : String} {plain : Ty}

/-! ## Characters -/

/-- A digit, then digits and underscores. -/
inductive Decimal : List Char → Prop
  | mk {c : Char} {cs : List Char} : c.isDigit = true → (∀ d ∈ cs, d.isDigit = true ∨ d = '_') →
      Decimal (c :: cs)

theorem Decimal.mem {d : Char} (h : Decimal cs) (hd : d ∈ cs) : d.isDigit = true ∨ d = '_' := by
  obtain ⟨hc, hcs⟩ := h
  obtain rfl | hd := List.mem_cons.1 hd
  · exact .inl hc
  · exact hcs d hd

theorem Decimal.not_suffix (h : Decimal cs) : ¬"u64".toList <:+ cs := by
  intro hsuffix
  have hu : 'u' ∈ cs := hsuffix.mem (by decide)
  exact absurd (h.mem hu) (by decide)

theorem Decimal.hexBody?_eq_none (h : Decimal cs) : hexBody? cs = none := by
  unfold hexBody?
  split
  next => exact absurd (h.mem (d := 'x') (by simp)) (by decide)
  next => exact absurd (h.mem (d := 'X') (by simp)) (by decide)
  next => rfl

/-! ## Digits and suffix -/

theorem splitDigits?_eq_some_iff :
    splitDigits? p cs = some (digits, suffix) ↔
      (∃ c ∈ cs.head?, p c = true) ∧ digits = cs.takeWhile (fun d => p d || d = '_') ∧
        suffix = cs.dropWhile (fun d => p d || d = '_') := by
  cases cs with
  | nil => simp [splitDigits?]
  | cons c cs =>
    simp only [splitDigits?, List.span_eq_takeWhile_dropWhile, List.head?_cons, Option.mem_def,
      Option.some.injEq, exists_eq_left']
    by_cases hc : p c = true
    · simp only [hc, if_true, Option.some.injEq, Prod.mk.injEq, true_and, eq_comm]
    · simp [hc]

theorem suffix_of_splitDigits? (h : splitDigits? p cs = some (digits, suffix)) : suffix <:+ cs := by
  obtain ⟨-, -, rfl⟩ := splitDigits?_eq_some_iff.1 h
  exact List.dropWhile_suffix _

/-- The digits are all of the number exactly when it is a decimal integer. -/
theorem splitDigits?_eq_some_nil_iff :
    splitDigits? Char.isDigit cs = some (digits, []) ↔ Decimal cs ∧ digits = cs := by
  rw [splitDigits?_eq_some_iff, eq_comm (a := []), List.dropWhile_eq_nil_iff]
  constructor
  · rintro ⟨⟨c, hc, hdigit⟩, rfl, hall⟩
    obtain ⟨rest, rfl⟩ := List.head?_eq_some_iff.1 hc
    refine ⟨⟨hdigit, fun d hd => ?_⟩, List.takeWhile_eq_self_iff.2 hall⟩
    simpa using hall d (List.mem_cons_of_mem c hd)
  · rintro ⟨h, rfl⟩
    have hall : ∀ d ∈ digits, (d.isDigit || d = '_') = true := fun d hd => by simpa using h.mem hd
    refine ⟨?_, (List.takeWhile_eq_self_iff.2 hall).symm, hall⟩
    obtain ⟨hc, _⟩ := h
    exact ⟨_, rfl, hc⟩

theorem isUnsuffixed_iff_decimal : isUnsuffixed text = true ↔ Decimal text.toList := by
  rw [isUnsuffixed, Bool.and_eq_true, Option.isNone_iff_eq_none, Option.any_eq_true]
  constructor
  · rintro ⟨-, ⟨digits, suffix⟩, hsplit, hsuffix⟩
    obtain rfl := List.isEmpty_iff.1 hsuffix
    exact (splitDigits?_eq_some_nil_iff.1 hsplit).1
  · intro h
    exact ⟨h.hexBody?_eq_none, _, splitDigits?_eq_some_nil_iff.2 ⟨h, rfl⟩, rfl⟩

/-! ## Types -/

theorem numberType_of_decimal (h : Decimal cs) : numberType cs = .prim .u64 := by
  rw [numberType, h.hexBody?_eq_none, splitDigits?_eq_some_nil_iff.2 ⟨h, rfl⟩]
  rfl

theorem type_of_decimal (h : Decimal text.toList) : type text = .prim .u64 := by
  have hword : ¬(text = "true" ∨ text = "false") := by
    rintro (rfl | rfl)
    · exact absurd (h.mem (d := 'e') (by decide)) (by decide)
    · exact absurd (h.mem (d := 'e') (by decide)) (by decide)
  rw [type, if_neg hword]
  have htype := numberType_of_decimal h
  generalize text.toList = cs at h htype
  obtain ⟨hc, _⟩ := h
  -- no other literal starts with a digit
  split
  next heq => cases (List.cons.inj heq).1 ▸ hc
  next heq => cases (List.cons.inj heq).1 ▸ hc
  next heq => cases (List.cons.inj heq).1 ▸ hc
  next heq => cases (List.cons.inj heq).1 ▸ hc
  next => exact htype

theorem suffixed_eq_u64 (h : suffixed plain suffix = .prim .u64) :
    suffix = [] ∧ plain = .prim .u64 ∨ suffix = "u64".toList := by
  unfold suffixed at h
  split at h
  next hempty => exact .inl ⟨List.isEmpty_iff.1 hempty, h⟩
  next =>
    cases hkind : Prim.ofSuffix? (.ofList suffix) with
    | none => simp [hkind] at h
    | some kind =>
      obtain rfl : kind = .u64 := by simpa [hkind] using h
      have hrender := Prim.render_of_ofSuffix? hkind
      exact .inr (by rw [← String.toList_ofList (l := suffix), ← hrender]; rfl)

theorem suffix_of_hexBody? {hex : List Char} (h : hexBody? cs = some hex) : hex <:+ cs := by
  unfold hexBody? at h
  split at h
  next => exact Option.some.inj h ▸ ⟨['0', 'x'], rfl⟩
  next => exact Option.some.inj h ▸ ⟨['0', 'X'], rfl⟩
  next => cases h

theorem decimal_or_suffix_of_numberType (h : numberType cs = .prim .u64) :
    Decimal cs ∨ "u64".toList <:+ cs := by
  unfold numberType at h
  split at h
  next hex hhex =>
    rcases hsplit : splitDigits? isHexDigit hex with _ | ⟨digits, suffix⟩
    · simp [hsplit, numberType.typeOfSplit] at h
    · rw [hsplit] at h
      obtain ⟨-, ⟨⟩⟩ | rfl := suffixed_eq_u64 h
      exact .inr ((suffix_of_splitDigits? hsplit).trans (suffix_of_hexBody? hhex))
  next =>
    rcases hsplit : splitDigits? Char.isDigit cs with _ | ⟨digits, suffix⟩
    · simp [hsplit, numberType.typeOfSplit] at h
    · rw [hsplit] at h
      obtain ⟨rfl, -⟩ | rfl := suffixed_eq_u64 h
      · exact .inl (splitDigits?_eq_some_nil_iff.1 hsplit).1
      · exact .inr (suffix_of_splitDigits? hsplit)

theorem numberType_of_type (h : type text = .prim .u64) : numberType text.toList = .prim .u64 := by
  unfold type at h
  split at h
  next => cases h
  next =>
    split at h
    next => cases h
    next => cases h
    next => cases h
    next => cases h
    next => exact h

/-- A literal is a decimal integer without a suffix exactly when its type is `u64` and it does not
end in the name of this type. -/
theorem isUnsuffixed_iff_type (text : String) :
    isUnsuffixed text = true ↔ type text = .prim .u64 ∧ ¬"u64".toList <:+ text.toList := by
  rw [isUnsuffixed_iff_decimal]
  constructor
  · intro h
    exact ⟨type_of_decimal h, h.not_suffix⟩
  · rintro ⟨htype, hsuffix⟩
    exact (decimal_or_suffix_of_numberType (numberType_of_type htype)).resolve_right hsuffix

end Literal

end MoveTyping
