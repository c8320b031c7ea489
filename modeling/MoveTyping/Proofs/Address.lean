import MoveTyping.Address

/-!
# Normal forms of addresses

The normal form of a hexadecimal literal is its own normal form. So a literal with leading zeros or
with capital letters is not the normal form of any address, unless an alias was given this literal.
-/

namespace MoveTyping

variable {c : Char} {cs digits hex : List Char}

/-- The facts about hexadecimal digits, which are checked one by one. -/
theorem isHexDigit_ofNat : ∀ n < 128, isHexDigit (.ofNat n) = true →
    isHexDigit (Char.ofNat n).toLower = true ∧
      (Char.ofNat n).toLower.toLower = (Char.ofNat n).toLower ∧
      ((Char.ofNat n).toLower = '0' → Char.ofNat n = '0') := by
  decide +kernel

theorem toNat_lt_of_isHexDigit (h : isHexDigit c = true) : c.toNat < 128 := by
  simp only [isHexDigit, Char.isDigit, Bool.or_eq_true, Bool.and_eq_true, decide_eq_true_eq,
    Char.le_def, UInt32.le_iff_toNat_le] at h
  change c.val.toNat < 128
  rcases h with (h | h) | h
  · exact Nat.lt_of_le_of_lt h.2 (by decide)
  · exact Nat.lt_of_le_of_lt h.2 (by decide)
  · exact Nat.lt_of_le_of_lt h.2 (by decide)

theorem isHexDigit_toLower (h : isHexDigit c = true) :
    isHexDigit c.toLower = true ∧ c.toLower.toLower = c.toLower ∧
      (c.toLower = '0' → c = '0') := by
  have hfacts := isHexDigit_ofNat c.toNat (toNat_lt_of_isHexDigit h)
  rw [Char.ofNat_toNat] at hfacts
  exact hfacts h

/-- Hexadecimal digits keep their form if there is no zero in front and no capital letter. -/
theorem shortestDigits_map_toLower {d : Char} {ds : List Char} (hd : d ≠ '0')
    (hdigits : (d :: ds).all isHexDigit = true) :
    shortestDigits ((d :: ds).map Char.toLower) = (d :: ds).map Char.toLower := by
  rw [List.all_eq_true] at hdigits
  have hhead : d.toLower ≠ '0' := fun h => hd ((isHexDigit_toLower (hdigits d (by simp))).2.2 h)
  have hlower : ((d :: ds).map Char.toLower).map Char.toLower = (d :: ds).map Char.toLower := by
    rw [List.map_map]
    exact List.map_congr_left fun c hc => (isHexDigit_toLower (hdigits c hc)).2.1
  unfold shortestDigits
  rw [List.map_cons, List.dropWhile_cons_of_neg (by simpa using hhead)]
  exact hlower

/-- What is left without the zeros in front. -/
theorem dropWhile_zeros {d : Char} {ds : List Char} (hdigits : digits.all isHexDigit = true)
    (h : digits.dropWhile (· = '0') = d :: ds) : d ≠ '0' ∧ (d :: ds).all isHexDigit = true := by
  constructor
  · have := List.head_dropWhile_not (fun c : Char => decide (c = '0')) (h ▸ List.cons_ne_nil d ds)
    simpa [h] using this
  · rw [← h, List.all_eq_true]
    rw [List.all_eq_true] at hdigits
    exact fun c hc => hdigits c ((List.dropWhile_suffix _).subset hc)

theorem shortestDigits_cases (hdigits : digits.all isHexDigit = true) :
    shortestDigits digits = ['0'] ∨ ∃ d ds, d ≠ '0' ∧ (d :: ds).all isHexDigit = true ∧
      shortestDigits digits = (d :: ds).map Char.toLower := by
  unfold shortestDigits
  cases h : digits.dropWhile (· = '0') with
  | nil => exact .inl rfl
  | cons d ds =>
    obtain ⟨hd, hds⟩ := dropWhile_zeros hdigits h
    exact .inr ⟨d, ds, hd, hds, rfl⟩

theorem canonicalHex?_eq (hdigits : digits ≠ []) (hall : digits.all isHexDigit = true) :
    canonicalHex? ('0' :: 'x' :: digits) = some ('0' :: 'x' :: shortestDigits digits) := by
  simp [canonicalHex?, hdigits, hall]

/-- A normal form is its own normal form. -/
theorem canonicalHex?_idem (h : canonicalHex? cs = some hex) : canonicalHex? hex = some hex := by
  unfold canonicalHex? at h
  split at h
  · next digits =>
    split at h
    · next hdigits =>
      cases h
      have hall : digits.all isHexDigit = true := (Bool.and_eq_true_iff.1 hdigits).2
      rcases shortestDigits_cases hall with hzero | ⟨d, ds, hd, hds, hshort⟩
      · rw [hzero]
        rfl
      · -- lower-case digits are digits, and the first of them is still not a zero
        have hlower : ((d :: ds).map Char.toLower).all isHexDigit = true := by
          rw [List.all_map, List.all_eq_true]
          rw [List.all_eq_true] at hds
          exact fun c hc => (isHexDigit_toLower (hds c hc)).1
        rw [hshort, canonicalHex?_eq (by simp) hlower, shortestDigits_map_toLower hd hds]
    · cases h
  · cases h

/-- A normal form has hexadecimal digits behind the `0x`. -/
theorem canonicalHex?_digits (h : canonicalHex? cs = some hex) :
    ∃ digits, hex = '0' :: 'x' :: digits ∧ ∀ c ∈ digits, isHexDigit c = true := by
  unfold canonicalHex? at h
  split at h
  · next digits =>
    split at h
    · next hdigits =>
      cases h
      refine ⟨_, rfl, ?_⟩
      rcases shortestDigits_cases (Bool.and_eq_true_iff.1 hdigits).2 with
        hzero | ⟨d, ds, -, hds, hshort⟩
      · rw [hzero]
        exact List.forall_mem_singleton.2 rfl
      · rw [hshort, List.forall_mem_map]
        rw [List.all_eq_true] at hds
        exact fun c hc => (isHexDigit_toLower (hds c hc)).1
    · cases h
  · cases h

namespace Aliases

/-- Normalization gives the address of an alias, a hexadecimal literal in normal form, or a text
that is no such literal. -/
theorem normalize_cases (aliases : Aliases) (address : String) :
    (∃ key, aliases.get? key = some (aliases.normalize address)) ∨
      canonicalHex? (aliases.normalize address).toList =
        some (aliases.normalize address).toList ∨
      canonicalHex? (aliases.normalize address).toList = none := by
  unfold normalize
  split
  · next target h => exact .inl ⟨_, h⟩
  · dsimp only
    split
    · next target h => exact .inl ⟨_, h⟩
    · refine .inr ?_
      rw [String.toList_ofList]
      cases h : canonicalHex? (bareAddress address.toList) with
      | none => exact .inr h
      | some hex => exact .inl (canonicalHex?_idem h)

/-- A literal that is not in normal form is not the normal form of any address, unless it is the
address of an alias. -/
theorem normalize_ne_of_padded {aliases : Aliases} {padded : String}
    (halias : ∀ key, aliases.get? key ≠ some padded)
    (hhex : canonicalHex? padded.toList = some hex) (hne : hex ≠ padded.toList)
    (address : String) : aliases.normalize address ≠ padded := by
  rintro rfl
  rcases aliases.normalize_cases address with ⟨key, h⟩ | h | h
  · exact halias key h
  · rw [hhex] at h
    exact hne (Option.some.inj h)
  · rw [hhex] at h
    cases h

end Aliases

end MoveTyping
