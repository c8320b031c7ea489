import MoveTyping.Proofs.Signature.Accept
import MoveTyping.Proofs.Text.Bytes

/-!
# Errors in type parameters

The parts of a declaration of a type parameter, said without the reader, and the error for a name
with a character that does not fit. The reader looks for that character in the whole declaration.
It finds it in the name unless it stands in front of the name as well, which only a blank behind the
word `phantom` can do.

## Main definitions

* `Signature.ParamText` — a declaration in its parts.
-/

namespace MoveTyping

theorem bind_eq_error_iff {ε α β : Type} {x : Except ε α} {f : α → Except ε β} {e : ε} :
    x >>= f = .error e ↔ x = .error e ∨ ∃ a, x = .ok a ∧ f a = .error e := by
  cases x <;> simp [bind, Except.bind]

namespace Text

variable {cs name gap : List Char}

theorem trimEnd_prefix (cs : List Char) : trimEnd cs <+: cs := by
  rw [trimEnd, ← List.reverse_suffix, List.reverse_reverse]
  exact List.dropWhile_suffix isBlank

/-- A text cut short at its end still begins the same way. -/
theorem mem_head?_of_prefix {c : Char} {cs cs' : List Char} (h : cs <+: cs') (hc : c ∈ cs.head?) :
    c ∈ cs'.head? := by
  obtain ⟨rest, rfl⟩ := h
  simp [Option.mem_def.1 hc]

theorem trimEnd_append_of_blank (hgap : ∀ c ∈ gap, isBlank c = true)
    (hlast : ∀ c ∈ name.getLast?, isBlank c = false) : trimEnd (name ++ gap) = name := by
  have hgap' : ∀ c ∈ gap.reverse, isBlank c = true := by simpa using hgap
  have hlast' : name.reverse.dropWhile isBlank = name.reverse := by
    cases h : name.reverse with
    | nil => rfl
    | cons c cs =>
      have hc : isBlank c = false := hlast c (by simp [← List.head?_reverse, h])
      simp [hc]
  rw [trimEnd, List.reverse_append, List.dropWhile_append_of_pos hgap', hlast',
    List.reverse_reverse]

theorem trim_append_of_blank (hgap : ∀ c ∈ gap, isBlank c = true)
    (hfirst : ∀ c ∈ name.head?, isBlank c = false)
    (hlast : ∀ c ∈ name.getLast?, isBlank c = false) : trim (name ++ gap) = name := by
  cases name with
  | nil =>
    rw [trim, trimStart, List.nil_append, List.dropWhile_eq_nil_iff.2 hgap]
    rfl
  | cons c cs =>
    have hc : isBlank c = false := hfirst c rfl
    have hstart : trimStart (c :: cs ++ gap) = c :: cs ++ gap := by simp [trimStart, hc]
    rw [trim, hstart, trimEnd_append_of_blank hgap hlast]

theorem exists_trimEnd_append (cs : List Char) :
    ∃ gap, cs = trimEnd cs ++ gap ∧ (∀ c ∈ gap, isBlank c = true) ∧
      ∀ c ∈ (trimEnd cs).getLast?, isBlank c = false := by
  refine ⟨(cs.reverse.takeWhile isBlank).reverse, ?_, ?_, ?_⟩
  · rw [trimEnd, ← List.reverse_append, List.takeWhile_append_dropWhile, List.reverse_reverse]
  · intro c hc
    exact List.mem_takeWhile_imp (by simpa using hc)
  · intro c hc
    have hhead := List.head?_dropWhile_not isBlank cs.reverse
    rw [trimEnd, List.getLast?_reverse, Option.mem_def] at hc
    rw [hc] at hhead
    exact hhead

end Text

namespace Signature

/-! ## Parts -/

/-- What comes before the name: the word `phantom`, a space and all blanks behind it, or nothing if
there is no such word. -/
inductive Lead : List Char → List Char → List Char → Prop
  | absent {cs : List Char} : ¬"phantom ".toList <+: cs → Lead cs [] cs
  | present {cs gap body : List Char} : Blanks cs gap body →
      Lead ("phantom ".toList ++ cs) ("phantom ".toList ++ gap) body

/-- A declaration in its parts. The name reaches up to the first colon, less the blanks at its ends,
and what is left begins with that colon. -/
structure ParamText (cs lead name gap bounds : List Char) : Prop where
  lead : Lead cs lead (name ++ gap ++ bounds)
  upTo : Run (· ≠ ':') (name ++ gap ++ bounds) (name ++ gap) bounds
  blank : ∀ c ∈ gap, Text.isBlank c = true
  first : ∀ c ∈ name.head?, Text.isBlank c = false
  last : ∀ c ∈ name.getLast?, Text.isBlank c = false

variable {cs lead body name gap bounds : List Char} {text whole : String} {offset : Nat}
  {found : Char}

theorem Lead.eq_append (h : Lead cs lead body) : cs = lead ++ body := by
  cases h with
  | absent => rfl
  | present hgap => rw [List.append_assoc, ← hgap.text]

theorem Lead.getD_phantomBody? (h : Lead cs lead body) : (phantomBody? cs).getD cs = body := by
  rw [phantomBody?]
  cases h with
  | absent hword =>
    rw [if_neg (mt List.isPrefixOf_iff_prefix.1 hword)]
    rfl
  | @present rest _ _ hgap =>
    rw [if_pos (List.isPrefixOf_iff_prefix.2 (List.prefix_append _ rest)),
      List.drop_left' (by rfl), hgap.trimStart_eq]
    rfl

/-- A text that does not begin with a blank has a lead, and neither does what follows the lead. -/
theorem exists_lead (hcs : ∀ c ∈ cs.head?, Text.isBlank c = false) :
    ∃ lead body, Lead cs lead body ∧ ∀ c ∈ body.head?, Text.isBlank c = false := by
  by_cases hword : "phantom ".toList <+: cs
  · obtain ⟨rest, rfl⟩ := hword
    have hgap := blanks_trimStart rest
    exact ⟨_, _, .present hgap, hgap.after⟩
  · exact ⟨_, _, .absent hword, hcs⟩

/-- A trimmed text has its parts. -/
theorem exists_paramText (text : List Char) :
    ∃ lead name gap bounds, ParamText (Text.trim text) lead name gap bounds := by
  have htrim : ∀ c ∈ (Text.trim text).head?, Text.isBlank c = false := by
    intro c hc
    exact (blanks_trimStart text).after c (Text.mem_head?_of_prefix (Text.trimEnd_prefix _) hc)
  obtain ⟨lead, body, hlead, hbody⟩ := exists_lead htrim
  -- the name is what stands before the colon, without the blanks that end it
  obtain ⟨raw, hraw⟩ : ∃ raw, body.takeWhile (· ≠ ':') = raw := ⟨_, rfl⟩
  have hupTo : Run (· ≠ ':') body raw (body.dropWhile (· ≠ ':')) := run_iff.2 ⟨hraw.symm, rfl⟩
  obtain ⟨gap, hgap, hblank, hlast⟩ := Text.exists_trimEnd_append raw
  have hfirst : ∀ c ∈ (Text.trimEnd raw).head?, Text.isBlank c = false := by
    intro c hc
    have hc : c ∈ raw.head? := Text.mem_head?_of_prefix (Text.trimEnd_prefix raw) hc
    exact hbody c (Text.mem_head?_of_prefix ⟨_, hupTo.text.symm⟩ hc)
  refine ⟨lead, Text.trimEnd raw, gap, body.dropWhile (· ≠ ':'), ?_, ?_, hblank, hfirst, hlast⟩
  · rwa [← hgap, ← hupTo.text]
  · rwa [← hgap, ← hupTo.text]

/-! ## Errors -/

theorem parseAbilities_ne_unexpectedChar {words : List String} :
    parseAbilities words ≠ .error (.unexpectedChar whole offset found) := by
  induction words with
  | nil => simp [parseAbilities]
  | cons word words ih =>
    rw [parseAbilities]
    split
    next => exact ih
    next =>
      split
      next =>
        rw [ne_eq, bind_eq_error_iff]
        rintro (h | ⟨_, _, ⟨⟩⟩)
        exact ih h
      next => simp

theorem ParamText.parseTypeParam_eq_iff
    (h : ParamText (Text.trim text.toList) lead name gap bounds) :
    parseTypeParam text = .error (.unexpectedChar whole offset found) ↔
      whole = .ofList (Text.trim text.toList) ∧ name.find? (!isIdentChar ·) = some found ∧
        offset = Text.byteLength ((Text.trim text.toList).takeWhile (· ≠ found)) := by
  have hname : Text.trim ((name ++ gap ++ bounds).takeWhile (· ≠ ':')) = name := by
    rw [← (run_iff.1 h.upTo).1]
    exact Text.trim_append_of_blank h.blank h.first h.last
  simp only [parseTypeParam, h.lead.getD_phantomBody?, hname]
  cases hfind : name.find? (!isIdentChar ·) with
  | some c =>
    simp only [Except.error.injEq, SignatureError.unexpectedChar.injEq, Option.some.injEq]
    constructor
    · rintro ⟨rfl, rfl, rfl⟩
      exact ⟨rfl, rfl, rfl⟩
    · rintro ⟨rfl, rfl, rfl⟩
      exact ⟨rfl, rfl, rfl⟩
  | none =>
    simp only [reduceCtorEq, false_and, and_false, iff_false]
    split
    next => simp
    next =>
      rw [bind_eq_error_iff]
      rintro (h | ⟨_, _, ⟨⟩⟩)
      exact parseAbilities_ne_unexpectedChar h

theorem takeWhile_ne_of_notMem {before after : List Char} (h : found ∉ before) :
    (before ++ found :: after).takeWhile (· ≠ found) = before := by
  have hrun : Run (· ≠ found) (before ++ found :: after) before (found :: after) :=
    ⟨rfl, by grind, by simp⟩
  exact (run_iff.1 hrun).1.symm

/-- The place where a character first stands is its place in `before ++ found :: after` exactly
when it does not stand in `before`. -/
theorem byteLength_takeWhile_ne_eq_iff {before after : List Char} :
    Text.byteLength ((before ++ found :: after).takeWhile (· ≠ found)) = Text.byteLength before ↔
      found ∉ before := by
  constructor
  · intro heq hmem
    obtain ⟨early, late, rfl, hearly⟩ := List.eq_append_cons_of_mem hmem
    rw [List.append_assoc, List.cons_append, takeWhile_ne_of_notMem hearly] at heq
    have := found.utf8Size_pos
    simp [Text.byteLength] at heq
    omega
  · intro hmem
    rw [takeWhile_ne_of_notMem hmem]

/-- The error of a type parameter whose name has a character that does not fit: it carries the
trimmed declaration, and it names the first such character of the name. Its offset is the place of
that character exactly when the character does not stand in front of the name as well. -/
theorem parseTypeParam_offset_iff (text : String) :
    (∃ lead name gap bounds, ParamText (Text.trim text.toList) lead name gap bounds) ∧
    ∀ lead name gap bounds, ParamText (Text.trim text.toList) lead name gap bounds →
      ∀ whole offset found, parseTypeParam text = .error (.unexpectedChar whole offset found) →
        whole.toList = lead ++ (name ++ gap ++ bounds) ∧
          ∃ good rest, name = good ++ found :: rest ∧ (∀ c ∈ good, isIdentChar c = true) ∧
            isIdentChar found = false ∧
            (offset = Text.byteLength (lead ++ good) ↔ found ∉ lead) := by
  refine ⟨exists_paramText text.toList, ?_⟩
  intro lead name gap bounds h whole offset found herror
  obtain ⟨rfl, hfind, rfl⟩ := h.parseTypeParam_eq_iff.1 herror
  have htext := h.lead.eq_append
  obtain ⟨hfound, good, rest, rfl, hgood⟩ := List.find?_eq_some_iff_append.1 hfind
  have hnot : found ∉ good := by
    intro hmem
    simpa [hfound] using hgood found hmem
  refine ⟨by rw [String.toList_ofList, htext], good, rest, rfl, by simpa using hgood,
    by simpa using hfound, ?_⟩
  have hsplit : Text.trim text.toList = (lead ++ good) ++ found :: (rest ++ gap ++ bounds) := by
    rw [htext]
    simp
  rw [hsplit, byteLength_takeWhile_ne_eq_iff, List.mem_append, or_iff_left hnot]

/-- A character of the name that stands nowhere else. -/
theorem parseTypeParam_offset_iff_dash :
    let text := " phantom A-B: copy"
    parseTypeParam text = .error (.unexpectedChar "phantom A-B: copy" 9 '-') ∧
      ∃ lead name gap bounds, ParamText (Text.trim text.toList) lead name gap bounds ∧
        ∃ good rest, name = good ++ '-' :: rest ∧ (∀ c ∈ good, isIdentChar c = true) ∧
          isIdentChar '-' = false ∧ (9 = Text.byteLength (lead ++ good) ↔ '-' ∉ lead) := by
  intro text
  have herror : parseTypeParam text = .error (.unexpectedChar "phantom A-B: copy" 9 '-') := by
    decide +kernel
  obtain ⟨⟨lead, name, gap, bounds, h⟩, hall⟩ := parseTypeParam_offset_iff text
  exact ⟨herror, lead, name, gap, bounds, h, (hall _ _ _ _ h _ _ _ herror).2⟩

/-- A space in the name is reported where the word `phantom` ends, at byte 7. The first character of
the name `A B` that does not fit starts at byte 9. -/
theorem parseTypeParam_offset_before_name :
    parseTypeParam "phantom A B" = .error (.unexpectedChar "phantom A B" 7 ' ') ∧
      ParamText (Text.trim "phantom A B".toList) "phantom ".toList ['A', ' ', 'B'] [] [] ∧
      isIdentChar 'A' = true ∧ isIdentChar ' ' = false ∧
      Text.byteLength ("phantom ".toList ++ ['A']) = 9 := by
  have htext : Text.trim "phantom A B".toList = "phantom ".toList ++ ['A', ' ', 'B'] := by
    decide +kernel
  have hA : Text.isBlank 'A' = false := by decide
  have hB : Text.isBlank 'B' = false := by decide
  have hgap : Blanks ['A', ' ', 'B'] [] ['A', ' ', 'B'] := ⟨rfl, by simp, by simp [hA]⟩
  refine ⟨by decide +kernel, ⟨?_, ⟨rfl, by simp, by simp⟩, by simp, by simp [hA], by simp [hB]⟩,
    by decide, by decide, by decide⟩
  rw [htext]
  exact .present hgap

end Signature

end MoveTyping
