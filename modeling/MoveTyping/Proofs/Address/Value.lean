import MoveTyping.Proofs.Address.Settled

/-!
# Hexadecimal addresses by value

A hexadecimal literal denotes a number. Its normal form consists of the shortest digits of that
number in lower case, so two literals have one normal form just if they denote the same number,
whatever zeros, capital letters and marks they are written with.

## Main definitions

* `hexValue` — the number that digits denote.
* `ShortestHex` — the shortest digits of a number in lower case.
* `SpellsHex` — a text is a literal with these digits.
-/

namespace MoveTyping

variable {c : Char} {digits : List Char}

/-! ## The number that digits denote -/

def hexDigitValue (c : Char) : Nat :=
  if c.isDigit then c.toNat - '0'.toNat else c.toLower.toNat - 'a'.toNat + 10

/-- The number that hexadecimal digits denote. -/
def hexValue (digits : List Char) : Nat :=
  digits.foldl (fun value c => 16 * value + hexDigitValue c) 0

/-- The facts about the values of digits, which are checked one by one. -/
theorem hexDigitValue_ofNat : ∀ n < 128, isHexDigit (.ofNat n) = true →
    hexDigitValue (.ofNat n) < 16 ∧
      (hexDigitValue (.ofNat n)).digitChar = (Char.ofNat n).toLower ∧
      (hexDigitValue (.ofNat n) = 0 → Char.ofNat n = '0') := by
  decide +kernel

theorem hexDigitValue_of_isHexDigit (h : isHexDigit c = true) :
    hexDigitValue c < 16 ∧ (hexDigitValue c).digitChar = c.toLower ∧
      (hexDigitValue c = 0 → c = '0') := by
  have hfacts := hexDigitValue_ofNat c.toNat (toNat_lt_of_isHexDigit h)
  rw [Char.ofNat_toNat] at hfacts
  exact hfacts h

/-- The digit of a value is a lower-case digit with that value. -/
theorem digitChar_facts : ∀ n < 16, isHexDigit n.digitChar = true ∧
    n.digitChar.toLower = n.digitChar ∧ hexDigitValue n.digitChar = n := by
  decide +kernel

theorem hexValue_concat (digits : List Char) (c : Char) :
    hexValue (digits ++ [c]) = 16 * hexValue digits + hexDigitValue c := by
  simp [hexValue]

/-- Zeros in front do not change the number. -/
theorem hexValue_dropWhile (digits : List Char) :
    hexValue (digits.dropWhile (· = '0')) = hexValue digits := by
  induction digits with
  | nil => rfl
  | cons c digits ih =>
    by_cases hc : c = '0'
    · rw [List.dropWhile_cons_of_pos (by simpa using hc), ih, hc]
      rfl
    · rw [List.dropWhile_cons_of_neg (by simpa using hc)]

theorem hexValue_lt (h : digits.all isHexDigit = true) : hexValue digits < 16 ^ digits.length := by
  induction digits using List.reverseRecOn with
  | nil => decide
  | append_singleton digits c ih =>
    rw [List.all_append, Bool.and_eq_true] at h
    have hc := (hexDigitValue_of_isHexDigit (by simpa using h.2)).1
    have hdigits := ih h.1
    rw [hexValue_concat, List.length_append, List.length_singleton, Nat.pow_succ]
    omega

/-! ## The digits of a number -/

/-- Digits without a zero in front are the digits of the number that they denote, apart from
capital letters. -/
theorem toDigits_hexValue {d : Char} {ds : List Char} (hd : d ≠ '0')
    (h : (d :: ds).all isHexDigit = true) :
    0 < hexValue (d :: ds) ∧ Nat.toDigits 16 (hexValue (d :: ds)) = (d :: ds).map Char.toLower := by
  induction ds using List.reverseRecOn with
  | nil =>
    obtain ⟨hlt, hchar, hzero⟩ := hexDigitValue_of_isHexDigit (c := d) (by simpa using h)
    have hvalue : hexValue [d] = hexDigitValue d := by simp [hexValue]
    rw [hvalue]
    refine ⟨Nat.pos_of_ne_zero fun heq => hd (hzero heq), ?_⟩
    rw [Nat.toDigits_of_lt_base hlt, hchar, List.map_singleton]
  | append_singleton ds c ih =>
    rw [← List.cons_append, List.all_append, Bool.and_eq_true] at h
    obtain ⟨hlt, hchar, -⟩ := hexDigitValue_of_isHexDigit (c := c) (by simpa using h.2)
    obtain ⟨hpos, hdigits⟩ := ih h.1
    rw [← List.cons_append, hexValue_concat]
    refine ⟨by omega, ?_⟩
    rw [← Nat.toDigits_append_toDigits (by decide) hpos hlt, hdigits,
      Nat.toDigits_of_lt_base hlt, hchar, List.map_append, List.map_singleton]

theorem shortestDigits_eq_toDigits (h : digits.all isHexDigit = true) :
    shortestDigits digits = Nat.toDigits 16 (hexValue digits) := by
  rw [← hexValue_dropWhile digits]
  unfold shortestDigits
  cases hdrop : digits.dropWhile (· = '0') with
  | nil => rfl
  | cons d ds =>
    obtain ⟨hd, hds⟩ := dropWhile_zeros h hdrop
    exact (toDigits_hexValue hd hds).2.symm

/-- The shortest digits of a number, in lower case. -/
structure ShortestHex (n : Nat) (digits : List Char) : Prop where
  ne_nil : digits ≠ []
  lower : ∀ c ∈ digits, isHexDigit c = true ∧ c.toLower = c
  value : hexValue digits = n
  shortest : ∀ ds, ds ≠ [] → ds.all isHexDigit = true → hexValue ds = n →
    digits.length ≤ ds.length

theorem hexValue_toDigits (n : Nat) : hexValue (Nat.toDigits 16 n) = n := by
  induction n using Nat.strongRecOn with
  | ind n ih =>
    rw [Nat.toDigits_eq_if (by decide)]
    split
    next hlt => simp [hexValue, (digitChar_facts n hlt).2.2]
    next hle =>
      rw [hexValue_concat, ih (n / 16) (by omega),
        (digitChar_facts (n % 16) (Nat.mod_lt _ (by decide))).2.2]
      omega

theorem lower_toDigits (n : Nat) :
    ∀ c ∈ Nat.toDigits 16 n, isHexDigit c = true ∧ c.toLower = c := by
  induction n using Nat.strongRecOn with
  | ind n ih =>
    rw [Nat.toDigits_eq_if (by decide)]
    split
    next hlt =>
      intro c hc
      obtain rfl := List.mem_singleton.1 hc
      exact ⟨(digitChar_facts n hlt).1, (digitChar_facts n hlt).2.1⟩
    next hle =>
      intro c hc
      have hmod := digitChar_facts (n % 16) (Nat.mod_lt _ (by decide))
      rcases List.mem_append.1 hc with hc | hc
      · exact ih (n / 16) (by omega) c hc
      · obtain rfl := List.mem_singleton.1 hc
        exact ⟨hmod.1, hmod.2.1⟩

theorem shortestHex_toDigits (n : Nat) : ShortestHex n (Nat.toDigits 16 n) where
  ne_nil := Nat.toDigits_ne_nil
  lower := lower_toDigits n
  value := hexValue_toDigits n
  shortest ds hne hall hvalue :=
    (Nat.length_toDigits_le_iff (by decide) (List.length_pos_iff.2 hne)).2
      (hvalue ▸ hexValue_lt hall)

/-! ## Literals -/

/-- The text is a hexadecimal literal with these digits, with or without a mark in front. -/
structure SpellsHex (text : String) (digits : List Char) : Prop where
  ne_nil : digits ≠ []
  all : digits.all isHexDigit = true
  eq : text = "0x" ++ .ofList digits ∨ text = "@0x" ++ .ofList digits

theorem SpellsHex.bareAddress {text : String} (h : SpellsHex text digits) :
    bareAddress text.toList = '0' :: 'x' :: digits := by
  rcases h.eq with rfl | rfl <;> simp [MoveTyping.bareAddress]

namespace Aliases

variable {t : Aliases} {text text' : String} {digits' : List Char}

theorem normalize_of_spellsHex (h : SpellsHex text digits) (hfree : t.target? text = none) :
    t.normalize text = "0x" ++ .ofList (Nat.toDigits 16 (hexValue digits)) := by
  rw [normalize_of_free hfree, h.bareAddress, canonicalHex?_eq h.ne_nil h.all,
    shortestDigits_eq_toDigits h.all]
  refine String.toList_inj.1 ?_
  simp

/-- Literals that are no aliases, with or without the mark, have one normal form just if they denote
the same number, and it is written with the shortest digits of that number in lower case. -/
theorem normalize_hex_by_value (h : SpellsHex text digits) (h' : SpellsHex text' digits')
    (hfree : t.target? text = none) (hfree' : t.target? text' = none) :
    (t.normalize text = t.normalize text' ↔ hexValue digits = hexValue digits') ∧
      ∃ shortest, ShortestHex (hexValue digits) shortest ∧
        t.normalize text = "0x" ++ .ofList shortest := by
  have hnormal := normalize_of_spellsHex h hfree
  refine ⟨?_, _, shortestHex_toDigits _, hnormal⟩
  rw [hnormal, normalize_of_spellsHex h' hfree']
  constructor
  · intro heq
    have hdigits : Nat.toDigits 16 (hexValue digits) = Nat.toDigits 16 (hexValue digits') := by
      simpa using congrArg String.toList heq
    rw [← hexValue_toDigits (hexValue digits), hdigits, hexValue_toDigits]
  · intro heq
    rw [heq]

theorem normalize_hex_by_value_padded :
    SpellsHex "0x00aB" ['0', '0', 'a', 'B'] ∧ SpellsHex "@0xAB" ['A', 'B'] ∧
      standard.target? "0x00aB" = none ∧ standard.target? "@0xAB" = none ∧
      standard.normalize "0x00aB" = standard.normalize "@0xAB" := by
  have hpadded : SpellsHex "0x00aB" ['0', '0', 'a', 'B'] :=
    ⟨by decide, by decide, .inl (by decide)⟩
  have hmarked : SpellsHex "@0xAB" ['A', 'B'] := ⟨by decide, by decide, .inr (by decide)⟩
  have hfree : standard.target? "0x00aB" = none := by decide +kernel
  have hfree' : standard.target? "@0xAB" = none := by decide +kernel
  exact ⟨hpadded, hmarked, hfree, hfree',
    (normalize_hex_by_value hpadded hmarked hfree hfree').1.2 (by decide)⟩

end Aliases

end MoveTyping
