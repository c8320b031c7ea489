import MoveTyping.Proofs.Signature.Cursor

/-!
# Positions in type texts

Reading a text by position gives what reading its characters gives. The readers of characters never
leave the text, so neither does the position: each step of the machine is compared with what the
reader has left at that step. The comparison is an induction on the fuel of the readers, which is
enough for every text, so the machine also ends.

## Main statements

* `Signature.Scan.readersAgree` — machine and readers agree on every phrase.
* `Signature.parseType_positions` — machine and reader agree on every text, all positions are good,
  and a character that does not fit is reported where it starts.
-/

namespace MoveTyping.Signature

variable {α : Type} {s : Scope} {src : Source} {text : String} {fuel : Nat}
  {cs cs' rest : List Char} {ch close : Char} {t : Ty}

/-! ## Lengths -/

theorem length_trimStart_le (cs : List Char) : (Text.trimStart cs).length ≤ cs.length :=
  (blanks_trimStart cs).length_le

theorem length_readMut_le (cs : List Char) : (readMut cs).2.length ≤ cs.length :=
  (mut_iff.2 rfl).length_le

theorem length_lt_of_readIdent {name : String} (h : readIdent cs = .ok (name, rest)) :
    rest.length < cs.length := by
  obtain ⟨_, _, _, hgap, hname, _⟩ := readIdent_eq_ok_iff.1 h
  exact Nat.lt_of_lt_of_le hname.length_lt hgap.length_le

theorem length_le_of_readSegments {names : List String}
    (h : readSegments fuel cs = .ok (names, rest)) : rest.length ≤ cs.length := by
  obtain ⟨_, hothers, _⟩ := others_of_readSegments h
  exact hothers.length_le

theorem length_lt_of_readType (h : readType s fuel cs = .ok (t, rest)) :
    rest.length < cs.length := by
  obtain ⟨_, hd, _⟩ := Phrase.Reads.derives .type ⟨t, h, rfl⟩
  exact hd.length_lt

/-- What the reader of types does with a name. -/
def readPath (s : Scope) (fuel : Nat) (cs : List Char) : Except Fault (Ty × List Char) := do
  let (name, rest) ← readIdent cs
  let (names, rest) ← readSegments rest.length rest
  let (args, rest) ← readArgs s fuel rest
  match s.denote? (name :: names) args with
  | some t => return (t, rest)
  | none => .error (.undefined ("::".intercalate (name :: names)))

theorem readType_of_other (hcs : Text.trimStart cs = ch :: rest) (hamp : ch ≠ '&')
    (hround : ch ≠ '(') :
    readType s (fuel + 1) cs =
      if isIdentChar ch then readPath s fuel (ch :: rest) else refuse (ch :: rest) := by
  rw [readType, hcs]
  split
  next heq => exact absurd (List.cons.inj heq).1 hamp
  next heq => exact absurd (List.cons.inj heq).1 hround
  next heq =>
    obtain ⟨rfl, rfl⟩ := List.cons.inj heq
    rfl
  next heq => cases heq

namespace Scan

/-! ## Words -/

theorem agrees_misfit : Agrees src.text (src.misfit : Scan α) cs (refuse cs) := by
  refine agrees_peek.bind_ok ?_
  cases cs with
  | nil => exact agrees_ended
  | cons ch cs => exact agrees_unexpected

theorem agrees_expectAny (h : Text.trimStart cs = ch :: cs') :
    Agrees src.text src.expectAny cs (.ok (ch, cs')) := by
  refine agrees_skipBlanks.bind_ok ?_
  rw [h]
  exact agrees_bump.bind_ok (agrees_pure ch)

theorem agrees_expectAny_nil (h : Text.trimStart cs = []) :
    Agrees src.text src.expectAny cs (.error .ended) := by
  refine agrees_skipBlanks.bind_ok ?_
  rw [h]
  exact agrees_bump_nil.bind_ok agrees_ended

theorem agrees_ident : Agrees src.text src.ident cs (readIdent cs) := by
  simp only [readIdent, List.span_eq_takeWhile_dropWhile]
  refine agrees_skipBlanks.bind_ok (.get_bind fun c hc => ?_)
  refine agrees_skipWhile.bind_ok (.get_bind fun c' hc' => ?_)
  generalize Text.trimStart cs = cs at hc hc' ⊢
  obtain ⟨before, htext, hpos⟩ := hc.behind
  have hname : src.text.toList =
      before ++ cs.takeWhile isIdentChar ++ cs.dropWhile isIdentChar := by
    rw [htext, List.append_assoc, List.takeWhile_append_dropWhile]
  have hpos' := hc'.pos_eq hname
  have hslice := Text.slice?_of_append hname
  rw [hpos, ← hpos'] at hslice
  rw [Text.byteLength_append, hpos] at hpos'
  by_cases hempty : cs.takeWhile isIdentChar = []
  · have hstay : c.pos = c'.pos := by simp [hpos', hempty, Text.byteLength]
    rw [if_pos hstay, hempty]
    exact agrees_misfit
  · have hmoved : c.pos ≠ c'.pos := by
      rw [← Text.byteLength_eq_zero_iff] at hempty
      omega
    rw [if_neg hmoved, if_neg (by simpa using hempty)]
    exact (agrees_ofSlice hslice).bind_ok (agrees_pure (String.ofList _))

theorem agrees_segments (hfuel : cs.length ≤ fuel) :
    Agrees src.text src.segments cs (readSegments fuel cs) := by
  fun_induction readSegments fuel cs with
  | case1 fuel cs ih =>
    have hmark : "::".toList.isPrefixOf (':' :: ':' :: cs) = true := by simp
    have hskip : Agrees src.text (advance 2) ([':', ':'] ++ cs) (.ok ((), cs)) := agrees_advance rfl
    rw [Source.segments]
    refine agrees_rest.bind_ok ?_
    rw [if_pos hmark]
    refine hskip.bind_ok (agrees_ident.bind ?_)
    intro name cs₁ hname
    have hlength := length_lt_of_readIdent hname
    refine (ih cs₁ ?_).bind fun names cs₂ _ => agrees_pure _
    grind
  | case2 fuel cs hcs =>
    have hmark : ¬"::".toList.isPrefixOf cs = true := by
      intro hmark
      obtain ⟨cs', rfl⟩ := List.isPrefixOf_iff_prefix.1 hmark
      exact hcs (fuel - 1) cs' (by simp at hfuel; omega) rfl
    rw [Source.segments]
    refine agrees_rest.bind_ok ?_
    rw [if_neg hmark]
    exact agrees_pure []

theorem agrees_mutWord : Agrees src.text src.mutWord cs (.ok (readMut cs)) := by
  have hcut : ∀ after, Text.splitBytes? 3 ('m' :: 'u' :: 't' :: after) =
      some (['m', 'u', 't'], after) :=
    fun after => Text.splitBytes?_eq_some_iff.2 ⟨rfl, rfl⟩
  refine agrees_rest.bind_ok ?_
  fun_cases readMut cs with
  | case1 after hident =>
    have hword : "mut".toList.isPrefixOf ('m' :: 'u' :: 't' :: after) = true := by simp
    rw [if_pos hword]
    refine (agrees_ofSlice (hcut after)).bind_ok ?_
    rw [if_pos hident]
    exact agrees_pure false
  | case2 after hident =>
    have hword : "mut".toList.isPrefixOf ('m' :: 'u' :: 't' :: after) = true := by simp
    have hskip : Agrees src.text (advance 3) (['m', 'u', 't'] ++ after) (.ok ((), after)) :=
      agrees_advance rfl
    rw [if_pos hword]
    refine (agrees_ofSlice (hcut after)).bind_ok ?_
    rw [if_neg hident]
    exact hskip.bind_ok (agrees_pure true)
  | case3 cs hcs =>
    have hword : ¬"mut".toList.isPrefixOf cs = true := by
      intro hword
      obtain ⟨after, rfl⟩ := List.isPrefixOf_iff_prefix.1 hword
      exact hcs after rfl
    rw [if_neg hword]
    exact agrees_pure false

/-! ## Types -/

/-- With this much fuel, the readers do what the machine does. A reader needs four levels for each
character that is left. -/
structure ReadersAgree (src : Source) (fuel : Nat) : Prop where
  type : ∀ cs, 4 * cs.length + 1 ≤ fuel → Agrees src.text src.type cs (readType src.scope fuel cs)
  args : ∀ cs, 4 * cs.length + 1 ≤ fuel → Agrees src.text src.args cs (readArgs src.scope fuel cs)
  items : ∀ close cs, 4 * cs.length + 2 ≤ fuel →
    Agrees src.text (src.items close) cs (readItems src.scope fuel close cs)
  list : ∀ close cs, 4 * cs.length + 3 ≤ fuel →
    Agrees src.text (src.list close) cs (readList src.scope fuel close cs)

theorem agrees_path (h : ReadersAgree src fuel) (hfuel : 4 * cs.length ≤ fuel) :
    Agrees src.text src.path cs (readPath src.scope fuel cs) := by
  rw [Source.path]
  refine agrees_ident.bind ?_
  intro name cs₁ hname
  refine (agrees_segments (Nat.le_refl _)).bind ?_
  intro names cs₂ hnames
  have hlength := length_lt_of_readIdent hname
  have hlength' := length_le_of_readSegments hnames
  refine (h.args cs₂ (by omega)).bind ?_
  intro args cs₃ _
  dsimp only
  cases src.scope.denote? (name :: names) args with
  | some t => exact agrees_pure t
  | none => exact agrees_undefined _

theorem agrees_type (h : ReadersAgree src fuel) (hfuel : 4 * cs.length ≤ fuel) :
    Agrees src.text src.type cs (readType src.scope (fuel + 1) cs) := by
  have hlength := length_trimStart_le cs
  rw [Source.type]
  refine agrees_skipBlanks.bind_ok (agrees_peek.bind_ok ?_)
  cases hcs : Text.trimStart cs with
  | nil =>
    rw [readType, hcs]
    exact agrees_ended
  | cons ch rest =>
    rw [hcs] at hlength
    by_cases hamp : ch = '&'
    · subst hamp
      have hgap := length_trimStart_le rest
      have hmut := length_readMut_le (Text.trimStart rest)
      rw [readType, hcs]
      refine agrees_bump.bind_ok (agrees_skipBlanks.bind_ok (agrees_mutWord.bind_ok ?_))
      refine (h.type _ ?_).bind fun inner cs' _ => agrees_pure _
      grind
    by_cases hround : ch = '('
    · subst hround
      rw [readType, hcs]
      refine agrees_bump.bind_ok ?_
      refine (h.list ')' rest ?_).bind fun elems cs' _ => agrees_pure _
      grind
    rw [readType_of_other hcs hamp hround]
    split
    next hhead => cases hhead
    next hhead => exact absurd (Option.some.inj hhead) hamp
    next hhead => exact absurd (Option.some.inj hhead) hround
    next c _ _ hhead =>
      obtain rfl : ch = c := Option.some.inj hhead
      by_cases hident : isIdentChar ch = true
      · rw [if_pos hident, if_pos hident]
        exact agrees_path h (by omega)
      · rw [if_neg hident, if_neg hident]
        exact agrees_unexpected

theorem agrees_args (h : ReadersAgree src fuel) (hfuel : 4 * cs.length ≤ fuel) :
    Agrees src.text src.args cs (readArgs src.scope (fuel + 1) cs) := by
  have hlength := length_trimStart_le cs
  rw [Source.args, readArgs]
  refine agrees_skipBlanks.bind_ok (agrees_peek.bind_ok ?_)
  generalize Text.trimStart cs = ds at hlength ⊢
  by_cases hangle : ds.head? = some '<'
  · obtain ⟨rest, rfl⟩ := List.head?_eq_some_iff.1 hangle
    rw [if_pos hangle]
    refine agrees_bump.bind_ok (h.list '>' rest ?_)
    grind
  · rw [if_neg hangle]
    split
    next => exact absurd rfl hangle
    next => exact agrees_pure []

theorem agrees_list (h : ReadersAgree src fuel) (hfuel : 4 * cs.length + 2 ≤ fuel) :
    Agrees src.text (src.list close) cs (readList src.scope (fuel + 1) close cs) := by
  have hlength := length_trimStart_le cs
  rw [Source.list, readList]
  refine agrees_skipBlanks.bind_ok (agrees_peek.bind_ok ?_)
  cases hcs : Text.trimStart cs with
  | nil =>
    obtain ⟨fuel, rfl⟩ : ∃ n, fuel = n + 2 := ⟨fuel - 2, by omega⟩
    exact h.items close [] (by simp)
  | cons ch rest =>
    rw [hcs] at hlength
    by_cases hclose : ch = close
    · subst hclose
      simp only [List.head?_cons, if_true]
      exact agrees_bump.bind_ok (agrees_pure [])
    · simp only [List.head?_cons, Option.some.injEq, hclose, if_false]
      exact h.items close _ (by omega)

theorem agrees_items (h : ReadersAgree src fuel) (hfuel : 4 * cs.length + 1 ≤ fuel) :
    Agrees src.text (src.items close) cs (readItems src.scope (fuel + 1) close cs) := by
  rw [Source.items, readItems]
  refine (h.type cs hfuel).bind ?_
  intro t cs₁ ht
  have hlength := length_lt_of_readType ht
  have hgap := length_trimStart_le cs₁
  refine .of_suffix fun hsuffix => ?_
  dsimp only
  cases hcs : Text.trimStart cs₁ with
  | nil => exact (agrees_expectAny_nil hcs).bind_error
  | cons ch rest =>
    rw [hcs] at hgap
    refine (agrees_expectAny hcs).bind_ok ?_
    by_cases hcomma : ch = ','
    · subst hcomma
      rw [if_pos rfl]
      refine (h.items close rest ?_).bind fun ts cs' _ => agrees_pure _
      grind
    simp only [hcomma, if_false]
    by_cases hclose : ch = close
    · simp only [hclose, if_true]
      exact agrees_pure [t]
    · have hback : ch :: rest <:+ src.text.toList := hcs ▸ (List.dropWhile_suffix _).trans hsuffix
      simp only [hclose, if_false]
      exact (agrees_retreat hback).bind_ok agrees_unexpected

/-- The machine does what the readers do, given four levels for each character. -/
theorem readersAgree (src : Source) (fuel : Nat) : ReadersAgree src fuel := by
  induction fuel with
  | zero => constructor <;> intros <;> omega
  | succ fuel ih =>
    exact ⟨fun cs h => agrees_type ih (by omega), fun cs h => agrees_args ih (by omega),
      fun close cs h => agrees_items ih (by omega), fun close cs h => agrees_list ih (by omega)⟩

theorem agrees_whole (src : Source) :
    Agrees src.text src.whole cs ((fun t => (t, [])) <$> readWhole src.scope cs) := by
  rw [readWhole, map_bind]
  refine ((readersAgree src _).type cs (by omega)).bind ?_
  intro t cs₁ _
  refine agrees_skipBlanks.bind_ok (agrees_peek.bind_ok ?_)
  dsimp only
  cases Text.trimStart cs₁ with
  | nil => exact agrees_pure t
  | cons ch rest => exact agrees_unexpected

end Scan

/-! ## Errors -/

theorem Fault.Within.startsAt {f : Fault} {whole : String} {offset : Nat} {found : Char}
    (h : f.Within text) (he : f.toError text.toList = .unexpectedChar whole offset found) :
    whole = text ∧ Text.StartsAt text offset found := by
  cases f with
  | ended | undefined => cases he
  | stray found' rest =>
    obtain ⟨before, htext⟩ := h
    simp only [toError, SignatureError.unexpectedChar.injEq, String.ofList_toList] at he
    obtain ⟨rfl, rfl, rfl⟩ := he
    refine ⟨rfl, Text.startsAt_iff.2 ⟨before, rest, htext.symm, ?_⟩⟩
    rw [← htext, Text.byteLength_append, Nat.add_sub_cancel]

/-- Reading a text by position ends, without a crash and with the same type or error as reading its
characters, and on the way the position is always at a place where the text can be cut. A character
that does not fit is reported with the whole text and with the place where it starts. -/
theorem parseType_positions (s : Scope) (text : String) :
    (∃ c : Cursor, (Source.whole ⟨s, text⟩).runFrom {} =
        some ((parseType s text).mapError Halt.refused, c) ∧
      ∀ p ∈ c.positions, String.Pos.Raw.IsValid text ⟨p⟩) ∧
    ∀ whole offset found, parseType s text = .error (.unexpectedChar whole offset found) →
      whole = text ∧ Text.StartsAt text offset found := by
  have hrun : Outcome text _ ((Source.whole ⟨s, text⟩).runFrom {}) :=
    Scan.agrees_whole ⟨s, text⟩ {} (Cursor.At.start text)
  generalize (Source.whole ⟨s, text⟩).runFrom {} = out at hrun ⊢
  rw [parseType]
  cases hread : readWhole s text.toList with
  | ok t =>
    rw [hread] at hrun
    cases hrun with
    | ok hc => exact ⟨⟨_, rfl, hc.sound⟩, by simp [Except.mapError]⟩
  | error f =>
    rw [hread] at hrun
    cases hrun with
    | error hsound hwithin =>
      refine ⟨⟨_, rfl, hsound⟩, ?_⟩
      intro whole offset found herror
      exact hwithin.startsAt (Except.error.inj herror)

/-- The character comes where a list goes on, behind a blank of three bytes, so the position has to
move back over the two bytes of the character. -/
theorem parseType_positions_stray :
    let s : Scope := ⟨.standard, "0x2", "coin", [], []⟩
    let text := "vector<u8\u3000ß>"
    parseType s text = .error (.unexpectedChar text 12 'ß') ∧ Text.StartsAt text 12 'ß' := by
  intro s text
  have h : parseType s text = .error (.unexpectedChar text 12 'ß') := by decide +kernel
  exact ⟨h, ((parseType_positions s text).2 _ _ _ h).2⟩

end MoveTyping.Signature
