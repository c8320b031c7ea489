import Mathlib.Data.Finset.Lattice.Fold
import MoveTyping.Proofs.Address
import MoveTyping.Proofs.Cache.Memory

/-!
# Addresses that are their own normal form

Normalization looks an alias up once and gives its address as it was written. So the normal form of
an alias is its own normal form only if the alias was given an address in normal form. The same goes
for a literal in normal form that is an alias itself, since a padded spelling of the literal is not.

A text with two marks in front loses one of them, and the other one if it is normalized again.

## Main definitions

* `Aliases.insertAll`, `Aliases.lastGiven?` — a table after insertions, and what an alias was given
  last.
* `Aliases.Settled` — a table that gives normal forms only.
* `Aliases.Stray` — a text with two marks that is not covered by an alias.
-/

namespace MoveTyping

variable {cs digits hex : List Char}

/-! ## Marks -/

theorem bareAddress_eq_self (h : ∀ rest, cs ≠ '@' :: rest) : bareAddress cs = cs := by
  unfold bareAddress
  split
  · exact absurd rfl (h _)
  · rfl

theorem bareAddress_of_canonicalHex? (h : canonicalHex? cs = some hex) : bareAddress cs = cs := by
  refine bareAddress_eq_self fun rest heq => ?_
  rw [heq] at h
  simp [canonicalHex?] at h

/-! ## Padding -/

/-- Zeros in front do not change the shortest digits. -/
theorem shortestDigits_replicate (count : Nat) (digits : List Char) :
    shortestDigits (List.replicate count '0' ++ digits) = shortestDigits digits := by
  have hzeros : (List.replicate count '0' ++ digits).dropWhile (· = '0') =
      digits.dropWhile (· = '0') :=
    List.dropWhile_append_of_pos fun c hc => decide_eq_true (List.eq_of_mem_replicate hc)
  unfold shortestDigits
  rw [hzeros]

/-- Every literal in normal form has spellings of any length. -/
theorem exists_padded (h : canonicalHex? hex = some hex) (count : Nat) :
    ∃ padded, count ≤ padded.length ∧ canonicalHex? padded = some hex := by
  unfold canonicalHex? at h
  split at h
  next digits =>
    split at h
    next hdigits =>
      simp only [Bool.and_eq_true, Bool.not_eq_true', List.isEmpty_eq_false_iff] at hdigits
      refine ⟨'0' :: 'x' :: (List.replicate count '0' ++ digits), ?_, ?_⟩
      · simp only [List.length_cons, List.length_append, List.length_replicate]
        omega
      · rw [canonicalHex?_eq (by simp [hdigits.1]), shortestDigits_replicate]
        · exact h
        · rw [List.all_append, hdigits.2, Bool.and_true, List.all_replicate]
          split <;> rfl
    · cases h
  · cases h

namespace Aliases

variable {t : Aliases} {address key target : String}

/-! ## Normal forms -/

/-- The address of the alias that a text is, with or without a mark in front. -/
def target? (t : Aliases) (address : String) : Option String :=
  (t.get? address).or (t.get? (.ofList (bareAddress address.toList)))

theorem normalize_of_target? (h : t.target? address = some target) :
    t.normalize address = target := by
  unfold target? at h
  unfold normalize
  cases haddress : t.get? address with
  | some found => simpa [haddress] using h
  | none => simp_all

theorem normalize_of_get? (h : t.get? key = some target) : t.normalize key = target :=
  normalize_of_target? (by simp [target?, h])

theorem normalize_of_free (h : t.target? address = none) :
    t.normalize address = .ofList ((canonicalHex? (bareAddress address.toList)).getD
      (bareAddress address.toList)) := by
  simp only [target?, Option.or_eq_none_iff] at h
  simp [normalize, h]

/-- A text without a mark is looked up once. -/
theorem target?_of_unmarked (h : bareAddress address.toList = address.toList) :
    t.target? address = t.get? address := by
  simp [target?, h]

/-- When a literal in normal form is kept. -/
theorem normalize_hex_eq_self_iff (h : canonicalHex? key.toList = some key.toList) :
    t.normalize key = key ↔ ∀ target, t.get? key = some target → target = key := by
  have hbare : bareAddress key.toList = key.toList := bareAddress_of_canonicalHex? h
  cases hget : t.get? key with
  | some target => simp [normalize_of_get? hget]
  | none =>
    have hfree : t.target? key = none := (target?_of_unmarked hbare).trans hget
    simp [normalize_of_free hfree, hbare, h]

/-! ## Insertions -/

/-- The table after addresses were given to aliases, one after the other. -/
def insertAll (t : Aliases) (given : List (String × String)) : Aliases :=
  given.foldl (fun t p => t.insert p.1 p.2) t

/-- The address that an alias was given last, by the insertions or before them. -/
def lastGiven? (t : Aliases) (given : List (String × String)) (key : String) : Option String :=
  (given.reverse.lookup key).or (t.get? key)

theorem get?_insertAll (t : Aliases) (given : List (String × String)) (key : String) :
    (t.insertAll given).get? key = t.lastGiven? given key := by
  induction given using List.reverseRecOn with
  | nil => rfl
  | append_singleton given p ih =>
    have hinsert : (t.insertAll (given ++ [p])).get? key =
        if key = p.1 then some p.2 else (t.insertAll given).get? key := by
      rw [insertAll, List.foldl_append]
      exact Table.get?_insert ..
    rw [hinsert, ih, lastGiven?, lastGiven?, List.reverse_concat, List.lookup_cons]
    by_cases hkey : key = p.1
    · simp [hkey]
    · simp [hkey, beq_false_of_ne hkey]

/-! ## Settled tables -/

/-- Every alias was given an address in normal form, and a literal in normal form stands for nothing
but itself. -/
def Settled (t : Aliases) : Prop :=
  ∀ key target, t.get? key = some target →
    t.normalize target = target ∧ (canonicalHex? key.toList = some key.toList → target = key)

instance (t : Aliases) : Decidable t.Settled :=
  decidable_of_iff (∀ r ∈ t.table.rows, t.normalize r.2 = r.2 ∧
      (canonicalHex? r.1.toList = some r.1.toList → r.2 = r.1))
    ⟨fun h key target hget => h (key, target) (Table.get?_eq_some_iff.1 hget),
      fun h r hr => h r.1 r.2 (Table.get?_eq_some_iff.2 hr)⟩

/-- The text begins with two marks, and neither the text nor what follows the first mark is an
alias. -/
def Stray (t : Aliases) (address : String) : Prop :=
  (∃ rest, address = "@@" ++ rest) ∧ t.target? address = none

/-- What a mark is taken from has no other one, unless there were two. -/
theorem bareAddress_bareAddress (hfree : t.target? address = none) (h : ¬ t.Stray address) :
    bareAddress (bareAddress address.toList) = bareAddress address.toList := by
  by_cases hmark : ∃ rest, address.toList = '@' :: rest
  · obtain ⟨rest, hrest⟩ := hmark
    refine bareAddress_eq_self fun rest' heq => h ⟨⟨.ofList rest', ?_⟩, hfree⟩
    rw [hrest] at heq
    refine String.toList_inj.1 ?_
    rw [hrest, show rest = '@' :: rest' from heq]
    simp
  · rw [bareAddress_eq_self fun rest hrest => hmark ⟨rest, hrest⟩]
    exact bareAddress_eq_self fun rest hrest => hmark ⟨rest, hrest⟩

theorem Settled.normalize_idem (h : t.Settled) (haddress : ¬ t.Stray address) :
    t.normalize (t.normalize address) = t.normalize address := by
  cases htarget : t.target? address with
  | some target =>
    rw [normalize_of_target? htarget]
    unfold target? at htarget
    rcases Option.or_eq_some_iff.1 htarget with hget | ⟨-, hget⟩
    · exact (h _ _ hget).1
    · exact (h _ _ hget).1
  | none =>
    rw [normalize_of_free htarget]
    cases hhex : canonicalHex? (bareAddress address.toList) with
    | some hex =>
      have hidem := canonicalHex?_idem hhex
      refine (normalize_hex_eq_self_iff (by simpa using hidem)).2 fun target hget => ?_
      exact (h _ _ hget).2 (by simpa using hidem)
    | none =>
      -- the bare text is no alias, and there is nothing left to take from it
      have hbare := bareAddress_bareAddress htarget haddress
      have hget : t.get? (.ofList (bareAddress address.toList)) = none :=
        (Option.or_eq_none_iff.1 htarget).2
      have hfree : t.target? (.ofList (bareAddress address.toList)) = none := by
        rw [target?_of_unmarked (by simpa using hbare), hget]
      simp [normalize_of_free hfree, hbare, hhex]

/-- Some spelling of a literal is longer than all aliases. -/
theorem exists_free_padded (t : Aliases) (h : canonicalHex? hex = some hex) :
    ∃ padded, ¬ t.Stray padded ∧ t.normalize padded = .ofList hex := by
  obtain ⟨cs, hlength, hpadded⟩ :=
    exists_padded h ((t.table.keys.toFinset.sup String.length) + 1)
  have hbare : bareAddress cs = cs := bareAddress_of_canonicalHex? hpadded
  have hget : t.get? (.ofList cs) = none := by
    refine Table.rowValue_eq_none_of_notMem fun hmem => ?_
    have hle := Finset.le_sup (f := String.length) (List.mem_toFinset.2 hmem)
    rw [String.length_ofList] at hle
    exact Nat.not_succ_le_self _ (Nat.le_trans hlength hle)
  have hfree : t.target? (.ofList cs) = none := by
    rw [target?_of_unmarked (by simpa using hbare), hget]
  refine ⟨.ofList cs, ?_, by simp [normalize_of_free hfree, hbare, hpadded]⟩
  rintro ⟨⟨rest, hrest⟩, -⟩
  have hcs : cs = '@' :: '@' :: rest.toList := by
    simpa using congrArg String.toList hrest
  simp [hcs, canonicalHex?] at hpadded

theorem settled_of_idem (h : ∀ address, ¬ t.Stray address →
    t.normalize (t.normalize address) = t.normalize address) : t.Settled := by
  intro key target hget
  constructor
  · have hcovered : ¬ t.Stray key := fun hstray => by
      simpa [target?, hget] using hstray.2
    have hidem := h key hcovered
    rwa [normalize_of_get? hget] at hidem
  · intro hhex
    obtain ⟨padded, hstray, hnormalize⟩ := t.exists_free_padded hhex
    have hidem := h padded hstray
    rwa [hnormalize, String.ofList_toList, normalize_of_get? hget] at hidem

/-- A text with two marks loses one of them each time. -/
theorem normalize_marked_idem_iff (rest : String) (h : t.target? ("@@" ++ rest) = none) :
    t.normalize (t.normalize ("@@" ++ rest)) = t.normalize ("@@" ++ rest) ↔
      t.get? rest = some ("@" ++ rest) := by
  have htwo : bareAddress ("@@" ++ rest).toList = ("@" ++ rest).toList := by simp [bareAddress]
  have hone : bareAddress ("@" ++ rest).toList = rest.toList := by simp [bareAddress]
  have honce : t.normalize ("@@" ++ rest) = "@" ++ rest := by
    have hhex : canonicalHex? ("@" ++ rest).toList = none := by simp [canonicalHex?]
    rw [normalize_of_free h, htwo, hhex, Option.getD_none, String.ofList_toList]
  have hget : t.get? ("@" ++ rest) = none := by
    rw [target?, Option.or_eq_none_iff, htwo, String.ofList_toList] at h
    exact h.2
  have htarget : t.target? ("@" ++ rest) = t.get? rest := by
    rw [target?, hget, hone, String.ofList_toList, Option.none_or]
  rw [honce]
  cases hrest : t.get? rest with
  | some target => rw [normalize_of_target? (htarget.trans hrest), Option.some.injEq]
  | none =>
    refine iff_of_false (fun heq => ?_) (by simp)
    have heq := congrArg String.toList heq
    rw [normalize_of_free (htarget.trans hrest), String.toList_ofList, hone] at heq
    cases hhex : canonicalHex? rest.toList with
    | some hex =>
      obtain ⟨digits, rfl, -⟩ := canonicalHex?_digits hhex
      simp [hhex] at heq
    | none => simp [hhex] at heq

theorem same_target_iff (h : t.get? key = some target) :
    t.same key target = true ↔ key = target ∨ t.normalize target = target := by
  rw [same, Bool.or_eq_true, beq_iff_eq, beq_iff_eq, normalize_of_get? h,
    eq_comm (a := target)]

/-- After any insertions normalization is idempotent just if the table is settled, apart from stray
texts. With two marks in front it is idempotent just if what follows them is an alias for the text
with one mark. An alias is the same address as the one it was given last just if that one is in
normal form. -/
theorem normalize_idem_iff_settled (base : Aliases) (given : List (String × String)) :
    let t := base.insertAll given
    ((∀ address, ¬ t.Stray address →
        t.normalize (t.normalize address) = t.normalize address) ↔ t.Settled) ∧
      (∀ rest, t.target? ("@@" ++ rest) = none →
        (t.normalize (t.normalize ("@@" ++ rest)) = t.normalize ("@@" ++ rest) ↔
          t.get? rest = some ("@" ++ rest))) ∧
      ∀ key target, base.lastGiven? given key = some target →
        (t.same key target = true ↔ key = target ∨ t.normalize target = target) := by
  intro t
  refine ⟨⟨settled_of_idem, fun h address => h.normalize_idem⟩, normalize_marked_idem_iff,
    fun key target hgiven => same_target_iff ?_⟩
  rw [get?_insertAll]
  exact hgiven

/-- The aliases of the framework are settled. -/
example : standard.Settled := by decide +kernel

/-- An alias for a padded literal is not the same address as the literal, and its normal form is not
in normal form. Without any alias this is so of a text with two marks. -/
theorem normalize_padded_target :
    let t := empty.insertAll [("bank", "0x05")]
    t.normalize (t.normalize "bank") ≠ t.normalize "bank" ∧ t.same "bank" "0x05" = false ∧
      empty.normalize (empty.normalize "@@bank") ≠ empty.normalize "@@bank" := by
  decide +kernel

end Aliases

end MoveTyping
