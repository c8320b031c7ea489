import MoveTyping.Text.Blank

/-!
# Places in a text

A place in a text is a number of bytes. A text can be cut there only if a character starts at the
place or the text ends there.

## Main definitions

* `Text.splitBytes?`, `Text.slice?` — cutting a text at places.
* `Text.StartsAt` — the character at a place.
-/

namespace MoveTyping.Text

variable {n m : Nat} {c : Char} {cs ds before after : List Char} {text : String}

/-! ## Lengths -/

@[simp, grind =]
theorem byteLength_append (cs ds : List Char) :
    byteLength (cs ++ ds) = byteLength cs + byteLength ds := by
  induction cs with
  | nil => simp [byteLength]
  | cons c cs ih => simp [byteLength, ih, Nat.add_assoc]

@[grind =]
theorem utf8ByteSize_ofList (cs : List Char) :
    (String.ofList cs).utf8ByteSize = byteLength cs := by
  induction cs with
  | nil => rfl
  | cons c cs ih =>
    rw [String.ofList_cons, String.utf8ByteSize_append, String.utf8ByteSize_singleton, ih]
    rfl

theorem byteLength_eq_zero_iff : byteLength cs = 0 ↔ cs = [] := by
  cases cs with
  | nil => simp [byteLength]
  | cons c cs => simp [byteLength, Nat.ne_of_gt c.utf8Size_pos]

/-! ## Cuts -/

/-- The first `n` bytes of a text and what follows them. There is no such cut if these bytes end
inside a character or beyond the text. -/
def splitBytes? : Nat → List Char → Option (List Char × List Char)
  | 0, cs => some ([], cs)
  | _ + 1, [] => none
  | n + 1, c :: cs =>
    if c.utf8Size ≤ n + 1 then
      (splitBytes? (n + 1 - c.utf8Size) cs).map fun sides => (c :: sides.1, sides.2)
    else none

theorem splitBytes?_eq_some_iff :
    splitBytes? n cs = some (before, after) ↔ cs = before ++ after ∧ byteLength before = n := by
  fun_induction splitBytes? n cs generalizing before with
  | case1 cs =>
    rw [byteLength_eq_zero_iff]
    grind
  | case2 n =>
    cases before with
    | nil => simp [byteLength]
    | cons d before => simp
  | case3 n c cs hc ih =>
    have hpos := c.utf8Size_pos
    cases before with
    | nil => simp [byteLength]
    | cons d before =>
      simp only [Option.map_eq_some_iff, Prod.exists, Prod.mk.injEq, byteLength]
      grind
  | case4 n c cs hc =>
    have hpos := c.utf8Size_pos
    cases before with
    | nil => simp [byteLength]
    | cons d before => grind [byteLength]

/-- The part of a text between two places. -/
def slice? (start stop : Nat) (cs : List Char) : Option (List Char) :=
  if start ≤ stop then do
    let upTo ← splitBytes? stop cs
    let sides ← splitBytes? start upTo.1
    return sides.2
  else none

theorem slice?_of_append {middle : List Char} (hcs : cs = before ++ middle ++ after) :
    slice? (byteLength before) (byteLength (before ++ middle)) cs = some middle := by
  have hstop : splitBytes? (byteLength (before ++ middle)) cs = some (before ++ middle, after) :=
    splitBytes?_eq_some_iff.2 ⟨hcs, rfl⟩
  have hstart : splitBytes? (byteLength before) (before ++ middle) = some (before, middle) :=
    splitBytes?_eq_some_iff.2 ⟨rfl, rfl⟩
  have hle : byteLength before ≤ byteLength (before ++ middle) := by simp
  simp only [slice?, if_pos hle, hstop, hstart, Option.bind_eq_bind, Option.bind_some]
  rfl

theorem isValid_iff :
    String.Pos.Raw.IsValid text ⟨n⟩ ↔
      ∃ before after, text.toList = before ++ after ∧ byteLength before = n := by
  rw [String.Pos.Raw.isValid_iff_exists_append]
  constructor
  · rintro ⟨before, after, rfl, hn⟩
    refine ⟨before.toList, after.toList, String.toList_append, ?_⟩
    rw [← utf8ByteSize_ofList, String.ofList_toList]
    exact (congrArg String.Pos.Raw.byteIdx hn).symm
  · rintro ⟨before, after, htext, rfl⟩
    refine ⟨.ofList before, .ofList after, ?_, ?_⟩
    · rw [← String.ofList_append, ← htext, String.ofList_toList]
    · rw [String.Pos.Raw.ext_iff, String.byteIdx_rawEndPos, utf8ByteSize_ofList]

/-! ## Characters -/

/-- The character `c` starts at byte `n` of the text. -/
def StartsAt (text : String) (n : Nat) (c : Char) : Prop :=
  ∃ before after : String, text = before ++ .singleton c ++ after ∧ before.utf8ByteSize = n

theorem startsAt_iff :
    StartsAt text n c ↔
      ∃ before after, text.toList = before ++ c :: after ∧ byteLength before = n := by
  constructor
  · rintro ⟨before, after, rfl, rfl⟩
    refine ⟨before.toList, after.toList, by simp, ?_⟩
    rw [← utf8ByteSize_ofList, String.ofList_toList]
  · rintro ⟨before, after, htext, rfl⟩
    refine ⟨.ofList before, .ofList after, ?_, utf8ByteSize_ofList before⟩
    rw [← String.toList_inj, htext]
    simp

end MoveTyping.Text
