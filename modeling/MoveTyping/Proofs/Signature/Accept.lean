import Mathlib.Data.List.TakeDrop
import MoveTyping.Proofs.Signature.Grammar

/-!
# The reader of type texts accepts its grammar

The reader gives a type exactly when the text derives as a type that denotes it. Soundness is an
induction on the fuel, completeness one on the derivation: each rule that reads a character has
enough fuel for its parts, since the reader descends at most four levels from one character to the
next.
-/

namespace MoveTyping

theorem bind_eq_ok_iff {ε α β : Type} {x : Except ε α} {f : α → Except ε β} {b : β} :
    x >>= f = .ok b ↔ ∃ a, x = .ok a ∧ f a = .ok b := by
  cases x <;> simp [bind, Except.bind]

namespace Signature

variable {s : Scope} {fuel : Nat} {cs cs₁ cs₂ cs₃ rest : List Char} {t : Ty} {ts : List Ty}

theorem refuse_ne_ok {α : Type} {r : α × List Char} : refuse cs ≠ .ok r := by
  cases cs <;> nofun

/-! ## Words -/

theorem blanks_trimStart (cs : List Char) :
    Blanks cs (cs.takeWhile Text.isBlank) (Text.trimStart cs) :=
  run_iff.2 ⟨rfl, rfl⟩

theorem Blanks.trimStart_eq {gap : List Char} (h : Blanks cs gap rest) :
    Text.trimStart cs = rest :=
  (run_iff.1 h).2.symm

theorem readIdent_eq_ok_iff {name : String} :
    readIdent cs = .ok (name, rest) ↔
      ∃ gap cs₁ chars, Blanks cs gap cs₁ ∧ Ident cs₁ chars rest ∧ String.ofList chars = name := by
  simp only [readIdent, List.span_eq_takeWhile_dropWhile]
  constructor
  · intro h
    split at h
    next => exact absurd h refuse_ne_ok
    next hname =>
      obtain ⟨rfl, rfl⟩ := Prod.mk.inj (Except.ok.inj h)
      exact ⟨_, _, _, blanks_trimStart cs, ⟨run_iff.2 ⟨rfl, rfl⟩, by simpa using hname⟩, rfl⟩
  · rintro ⟨gap, cs₁, chars, hgap, hchars, rfl⟩
    obtain ⟨hrun, hrest⟩ := run_iff.1 hchars.toRun
    simp [hgap.trimStart_eq, ← hrun, ← hrest, hchars.ne_nil]

theorem others_of_readSegments {names : List String}
    (h : readSegments fuel cs = .ok (names, rest)) :
    ∃ others, Others cs others rest ∧ others.map (fun other => String.ofList other.2) = names := by
  fun_induction readSegments fuel cs generalizing names with
  | case1 fuel cs ih =>
    obtain ⟨⟨name, mid⟩, hname, h⟩ := bind_eq_ok_iff.1 h
    obtain ⟨⟨names', rest'⟩, hnames, h⟩ := bind_eq_ok_iff.1 h
    obtain ⟨rfl, rfl⟩ := Prod.mk.inj (Except.ok.inj h)
    obtain ⟨gap, cs₁, chars, hgap, hchars, rfl⟩ := readIdent_eq_ok_iff.1 hname
    obtain ⟨others, hothers, rfl⟩ := ih _ hnames
    exact ⟨_, .cons hgap hchars hothers, rfl⟩
  | case2 =>
    obtain ⟨rfl, rfl⟩ := Prod.mk.inj (Except.ok.inj h)
    exact ⟨[], .nil, rfl⟩

theorem Others.readSegments_eq {others : List (List Char × List Char)} (h : Others cs others rest)
    (hrest : rest.head? ≠ some ':') (hfuel : cs.length ≤ fuel) :
    readSegments fuel cs = .ok (others.map (fun other => String.ofList other.2), rest) := by
  induction h generalizing fuel with
  | nil =>
    unfold readSegments
    split
    · exact absurd rfl hrest
    · rfl
  | cons hgap hname hothers ih =>
    have hread := readIdent_eq_ok_iff.2 ⟨_, _, _, hgap, hname, rfl⟩
    have hlength := Nat.le_trans hname.length_le hgap.length_le
    simp only [List.length_cons] at hfuel
    cases fuel with
    | zero => omega
    | succ fuel =>
      rw [readSegments]
      exact bind_eq_ok_iff.2 ⟨_, hread, bind_eq_ok_iff.2 ⟨_, ih hrest (by omega), rfl⟩⟩

/-! ## Soundness -/

theorem readArgs_cases (h : readArgs s (fuel + 1) cs = .ok (ts, rest)) :
    (rest = Text.trimStart cs ∧ ts = []) ∨
      ∃ cs₁, Text.trimStart cs = '<' :: cs₁ ∧ readList s fuel '>' cs₁ = .ok (ts, rest) := by
  rw [readArgs] at h
  split at h
  next cs₁ hcs => exact .inr ⟨cs₁, hcs, h⟩
  next =>
    obtain ⟨rfl, rfl⟩ := Prod.mk.inj (Except.ok.inj h)
    exact .inl ⟨rfl, rfl⟩

/-- What it takes to read a type. -/
theorem readType_cases (h : readType s (fuel + 1) cs = .ok (t, rest)) :
    (∃ lead gap cs₁ cs₂ cs₃ mutable inner, Blanks cs lead ('&' :: cs₁) ∧ Blanks cs₁ gap cs₂ ∧
      Mut cs₂ mutable cs₃ ∧ readType s fuel cs₃ = .ok (inner, rest) ∧ t = .ref inner mutable) ∨
    (∃ lead cs₁ elems, Blanks cs lead ('(' :: cs₁) ∧ readList s fuel ')' cs₁ = .ok (elems, rest) ∧
      IsTuple elems t) ∨
    ∃ lead cs₁ path cs₂, Blanks cs lead cs₁ ∧ PathAt cs₁ path cs₂ ∧
      (rest = cs₂ ∧ Names s path.segments [] t ∨
        ∃ cs₃ fuel' args, fuel' < fuel ∧ cs₂ = '<' :: cs₃ ∧
          readList s fuel' '>' cs₃ = .ok (args, rest) ∧ Names s path.segments args t) := by
  have hlead := blanks_trimStart cs
  rw [readType] at h
  split at h
  next cs₁ hcs =>
    obtain ⟨⟨inner, _⟩, hinner, h⟩ := bind_eq_ok_iff.1 h
    obtain ⟨rfl, rfl⟩ := Prod.mk.inj (Except.ok.inj h)
    rw [hcs] at hlead
    exact .inl ⟨_, _, _, _, _, _, _, hlead, blanks_trimStart cs₁, mut_iff.2 rfl, hinner, rfl⟩
  next cs₁ hcs =>
    obtain ⟨⟨elems, _⟩, helems, h⟩ := bind_eq_ok_iff.1 h
    obtain ⟨rfl, rfl⟩ := Prod.mk.inj (Except.ok.inj h)
    rw [hcs] at hlead
    exact .inr (.inl ⟨_, _, _, hlead, helems, isTuple_iff.2 rfl⟩)
  next c cs₁ _ _ hcs =>
    rw [hcs] at hlead
    split at h
    next hc =>
      obtain ⟨⟨name, cs₂⟩, hname, h⟩ := bind_eq_ok_iff.1 h
      obtain ⟨⟨names, cs₃⟩, hnames, h⟩ := bind_eq_ok_iff.1 h
      obtain ⟨⟨args, rest'⟩, hargs, h⟩ := bind_eq_ok_iff.1 h
      obtain ⟨gap, cs₁', chars, hgap, hchars, rfl⟩ := readIdent_eq_ok_iff.1 hname
      obtain ⟨_, rfl⟩ := hlead.stop.unique hgap
      obtain ⟨others, hothers, rfl⟩ := others_of_readSegments hnames
      have hpath := PathAt.mk hchars hothers (blanks_trimStart cs₃)
      dsimp only at h
      split at h
      next u hu =>
        obtain ⟨rfl, rfl⟩ := Prod.mk.inj (Except.ok.inj h)
        refine .inr (.inr ⟨_, _, _, _, hlead, hpath, ?_⟩)
        cases fuel with
        | zero =>
          rw [readArgs] at hargs
          exact absurd hargs refuse_ne_ok
        | succ fuel =>
          obtain ⟨rfl, rfl⟩ | ⟨cs₄, hcs₄, hargs⟩ := readArgs_cases hargs
          · exact .inl ⟨rfl, names_iff.2 hu⟩
          · exact .inr ⟨cs₄, fuel, args, Nat.lt_succ_self _, hcs₄, hargs, names_iff.2 hu⟩
      next => cases h
    next => exact absurd h refuse_ne_ok
  next => cases h

theorem readType_trimStart :
    readType s fuel (Text.trimStart cs) = .ok (t, rest) ↔ readType s fuel cs = .ok (t, rest) := by
  cases fuel with
  | zero => simp only [readType, refuse_ne_ok]
  | succ fuel => rw [readType, readType, Blanks.trimStart_eq (blanks_trimStart cs).stop]

theorem readItems_trimStart {close : Char} :
    readItems s fuel close (Text.trimStart cs) = .ok (ts, rest) ↔
      readItems s fuel close cs = .ok (ts, rest) := by
  cases fuel with
  | zero => simp only [readItems, refuse_ne_ok]
  | succ fuel => simp only [readItems, bind_eq_ok_iff, Prod.exists, readType_trimStart]

theorem readList_cases {close : Char} (h : readList s (fuel + 1) close cs = .ok (ts, rest)) :
    (∃ lead, Blanks cs lead (close :: rest) ∧ ts = []) ∨
      readItems s fuel close cs = .ok (ts, rest) := by
  have hlead := blanks_trimStart cs
  rw [readList] at h
  split at h
  next c cs₁ hcs =>
    split at h
    next hc =>
      obtain ⟨rfl, rfl⟩ := Prod.mk.inj (Except.ok.inj h)
      rw [hcs, hc] at hlead
      exact .inl ⟨_, hlead, rfl⟩
    next => exact .inr (readItems_trimStart.1 (hcs ▸ h))
  next => cases h

theorem readItems_cases {close : Char} (h : readItems s (fuel + 1) close cs = .ok (ts, rest)) :
    ∃ t cs₁ gap, readType s fuel cs = .ok (t, cs₁) ∧
      (Blanks cs₁ gap (close :: rest) ∧ ts = [t] ∨
        ∃ cs₂ us, Blanks cs₁ gap (',' :: cs₂) ∧ readItems s fuel close cs₂ = .ok (us, rest) ∧
          ts = t :: us) := by
  rw [readItems] at h
  obtain ⟨⟨t, cs₁⟩, ht, h⟩ := bind_eq_ok_iff.1 h
  have hgap := blanks_trimStart cs₁
  refine ⟨t, cs₁, cs₁.takeWhile Text.isBlank, ht, ?_⟩
  dsimp only at h
  split at h
  next cs₂ hcs =>
    obtain ⟨⟨us, _⟩, hus, h⟩ := bind_eq_ok_iff.1 h
    obtain ⟨rfl, rfl⟩ := Prod.mk.inj (Except.ok.inj h)
    rw [hcs] at hgap
    exact .inr ⟨cs₂, us, hgap, hus, rfl⟩
  next c cs₂ _ hcs =>
    split at h
    next hc =>
      obtain ⟨rfl, rfl⟩ := Prod.mk.inj (Except.ok.inj h)
      rw [hcs, hc] at hgap
      exact .inl ⟨hgap, rfl⟩
    next => exact absurd h refuse_ne_ok
  next => cases h

/-- The reader gives the types of a phrase, one for a type. -/
def Phrase.Reads (s : Scope) (fuel : Nat) (cs : List Char) (ts : List Ty) (rest : List Char) :
    Phrase → Prop
  | .type => ∃ t, readType s fuel cs = .ok (t, rest) ∧ [t] = ts
  | .list bracket => readList s fuel bracket.close cs = .ok (ts, rest)
  | .items bracket => readItems s fuel bracket.close cs = .ok (ts, rest)

theorem Phrase.not_reads_zero {φ : Phrase} : ¬φ.Reads s 0 cs ts rest := by
  cases φ <;> simp [Reads, readType, readList, readItems, refuse_ne_ok]

/-- What is read derives from the grammar and denotes the types that are given. -/
theorem Phrase.Reads.derives (φ : Phrase) (h : φ.Reads s fuel cs ts rest) :
    ∃ d, Derives φ cs d rest ∧ Denotes s d ts := by
  induction fuel using Nat.strong_induction_on generalizing φ cs ts rest with
  | _ fuel ih
  cases fuel with
  | zero => exact absurd h Phrase.not_reads_zero
  | succ fuel =>
    cases φ with
    | type =>
      obtain ⟨t, h, rfl⟩ := h
      obtain ⟨lead, gap, cs₁, cs₂, cs₃, mutable, inner, hlead, hgap, hmut, hinner, rfl⟩ |
        ⟨lead, cs₁, elems, hlead, helems, ht⟩ |
        ⟨lead, cs₁, path, cs₂, hlead, hpath, ⟨rfl, ht⟩ |
          ⟨cs₃, fuel', args, hfuel, rfl, hargs, ht⟩⟩ := readType_cases h
      · obtain ⟨d, hd, hinner⟩ := ih fuel (by omega) .type ⟨_, hinner, rfl⟩
        exact ⟨_, .ref hlead hgap hmut hd, .ref hinner⟩
      · obtain ⟨d, hd, helems⟩ := ih fuel (by omega) (.list .round) helems
        exact ⟨_, .tuple hlead hd, .tuple helems ht⟩
      · exact ⟨_, .path hlead hpath, .path ht⟩
      · obtain ⟨d, hd, hargs⟩ := ih fuel' (by omega) (.list .angle) hargs
        exact ⟨_, .apply hlead hpath hd, .apply hargs ht⟩
    | list bracket =>
      obtain ⟨lead, hlead, rfl⟩ | hitems := readList_cases h
      · exact ⟨_, .empty hlead, .empty⟩
      · obtain ⟨d, hd, hts⟩ := ih fuel (by omega) (.items bracket) hitems
        exact ⟨d, .items hd, hts⟩
    | items bracket =>
      obtain ⟨t, cs₁, gap, ht, ⟨hgap, rfl⟩ | ⟨cs₂, us, hgap, hus, rfl⟩⟩ := readItems_cases h
      all_goals
        obtain ⟨d, hd, ht⟩ := ih fuel (by omega) .type ⟨_, ht, rfl⟩
      · exact ⟨_, .last hd hgap, .last ht⟩
      · obtain ⟨ds, hds, hus⟩ := ih fuel (by omega) (.items bracket) hus
        exact ⟨_, .cons hd hgap hds, .cons ht hus⟩

/-! ## Completeness -/

theorem readType_of_ref {lead gap : List Char} {mutable : Bool}
    (hlead : Blanks cs lead ('&' :: cs₁)) (hgap : Blanks cs₁ gap cs₂) (hmut : Mut cs₂ mutable cs₃)
    (h : readType s fuel cs₃ = .ok (t, rest)) :
    readType s (fuel + 1) cs = .ok (.ref t mutable, rest) := by
  simp only [readType, hlead.trimStart_eq, hgap.trimStart_eq, mut_iff.1 hmut]
  exact bind_eq_ok_iff.2 ⟨_, h, rfl⟩

theorem readType_of_tuple {lead : List Char} (hlead : Blanks cs lead ('(' :: cs₁))
    (h : readList s fuel ')' cs₁ = .ok (ts, rest)) (ht : IsTuple ts t) :
    readType s (fuel + 1) cs = .ok (t, rest) := by
  simp only [readType, hlead.trimStart_eq]
  exact bind_eq_ok_iff.2 ⟨_, h, by rw [← isTuple_iff.1 ht]; rfl⟩

theorem readArgs_eq_of_blanks {gap : List Char} (h : Blanks cs gap cs₁) :
    readArgs s (fuel + 1) cs = readArgs s (fuel + 1) cs₁ := by
  rw [readArgs, readArgs, h.trimStart_eq, Blanks.trimStart_eq h.stop]

theorem readType_of_path {lead : List Char} {path : PathText} (hlead : Blanks cs lead cs₁)
    (hpath : PathAt cs₁ path cs₂) (hcs₂ : cs₂.head? ≠ some ':')
    (hargs : readArgs s (fuel + 1) cs₂ = .ok (ts, rest)) (ht : Names s path.segments ts t) :
    readType s (fuel + 2) cs = .ok (t, rest) := by
  obtain ⟨c, tail, rfl, hc⟩ := hpath.first
  obtain ⟨hhead, hothers, hgap⟩ := hpath
  have hname := readIdent_eq_ok_iff.2 ⟨_, _, _, hlead.stop, hhead, rfl⟩
  have hnames := hothers.readSegments_eq (hgap.head?_ne rfl hcs₂) (Nat.le_refl _)
  rw [← readArgs_eq_of_blanks hgap] at hargs
  rw [readType, hlead.trimStart_eq]
  split
  next heq => cases (List.cons.inj heq).1 ▸ hc
  next heq => cases (List.cons.inj heq).1 ▸ hc
  next heq =>
    obtain ⟨rfl, rfl⟩ := List.cons.inj heq
    rw [if_pos hc]
    refine bind_eq_ok_iff.2 ⟨_, hname, bind_eq_ok_iff.2 ⟨_, hnames, ?_⟩⟩
    refine bind_eq_ok_iff.2 ⟨_, hargs, ?_⟩
    have hdenote := names_iff.1 ht
    simp only [PathText.segments] at hdenote
    simp only [hdenote]
    rfl
  next heq => cases heq

theorem readItems_nil {close : Char} : readItems s fuel close [] ≠ .ok (ts, rest) := by
  intro h
  cases fuel with
  | zero => cases h
  | succ fuel =>
    obtain ⟨t, cs₁, _, ht, _⟩ := readItems_cases h
    cases fuel <;> cases ht

theorem readList_of_items {bracket : Bracket} {d : Derivation}
    (hd : Derives (.items bracket) cs d rest)
    (h : readItems s fuel bracket.close cs = .ok (ts, rest)) :
    readList s (fuel + 1) bracket.close cs = .ok (ts, rest) := by
  have hlead := blanks_trimStart cs
  rw [← readItems_trimStart] at h
  rw [readList]
  split
  next c cs₁ hcs =>
    rw [hcs] at h hlead
    rw [if_neg]
    · exact h
    · rintro rfl
      exact hd.not_close nofun hlead
  next hcs => exact absurd (hcs ▸ h) readItems_nil

theorem readItems_of_cons {close : Char} {us : List Ty} {gap : List Char}
    (ht : readType s fuel cs = .ok (t, cs₁)) (hgap : Blanks cs₁ gap (',' :: cs₂))
    (hus : readItems s fuel close cs₂ = .ok (us, rest)) :
    readItems s (fuel + 1) close cs = .ok (t :: us, rest) := by
  rw [readItems]
  refine bind_eq_ok_iff.2 ⟨_, ht, ?_⟩
  simp only [hgap.trimStart_eq]
  exact bind_eq_ok_iff.2 ⟨_, hus, rfl⟩

theorem readItems_of_last {bracket : Bracket} {gap : List Char}
    (ht : readType s fuel cs = .ok (t, cs₁)) (hgap : Blanks cs₁ gap (bracket.close :: rest)) :
    readItems s (fuel + 1) bracket.close cs = .ok ([t], rest) := by
  rw [readItems]
  refine bind_eq_ok_iff.2 ⟨_, ht, ?_⟩
  simp only [hgap.trimStart_eq]
  cases bracket <;> rfl

/-! Every phrase takes at least one character. -/

theorem Ident.length_lt {name : List Char} (h : Ident cs name rest) : rest.length < cs.length := by
  rw [h.text, List.length_append]
  exact Nat.lt_add_of_pos_left (List.length_pos_iff.2 h.ne_nil)

theorem Mut.length_le {mutable : Bool} (h : Mut cs mutable rest) : rest.length ≤ cs.length := by
  cases h <;> grind

theorem Others.length_le {others : List (List Char × List Char)} (h : Others cs others rest) :
    rest.length ≤ cs.length := by
  induction h with
  | nil => exact Nat.le_refl _
  | cons hgap hname _ ih => grind [hgap.length_le, hname.length_lt]

theorem PathAt.length_lt {path : PathText} (h : PathAt cs path rest) :
    rest.length < cs.length := by
  obtain ⟨hhead, hothers, hgap⟩ := h
  grind [hhead.length_lt, hothers.length_le, hgap.length_le]

theorem Derives.length_lt {φ : Phrase} {d : Derivation} (h : Derives φ cs d rest) :
    rest.length < cs.length := by
  induction h with
  | ref hlead hgap hmut _ ih => grind [hlead.length_le, hgap.length_le, hmut.length_le]
  | tuple hlead _ ih => grind [hlead.length_le]
  | path hlead hpath => grind [hlead.length_le, hpath.length_lt]
  | apply hlead hpath _ ih => grind [hlead.length_le, hpath.length_lt]
  | empty hlead => grind [hlead.length_le]
  | items _ ih => exact ih
  | last _ hgap ih => grind [hgap.length_le]
  | cons _ hgap _ ih ihitems => grind [hgap.length_le]

/-- The levels that a list takes before its first type. -/
@[simp]
def Phrase.levels : Phrase → Nat
  | .list _ => 1
  | _ => 0

/-- What derives from the grammar is read, given four levels for each of its characters. -/
theorem Derives.reads {φ : Phrase} {d : Derivation} (h : Derives φ cs d rest)
    (hends : φ = .type → Ends rest) (hd : Denotes s d ts) (fuel : Nat)
    (hfuel : 4 * cs.length + φ.levels ≤ fuel + 4 * rest.length) : φ.Reads s fuel cs ts rest := by
  induction h generalizing fuel ts with
  | ref hlead hgap hmut hinner ih =>
    have hlength := hinner.length_lt
    have hskip := hmut.length_le.trans hgap.length_le
    obtain ⟨fuel, rfl⟩ : ∃ n, fuel = n + 1 := ⟨fuel - 1, by grind [hlead.length_le]⟩
    cases hd with
    | ref hd =>
      obtain ⟨u, hu, ⟨⟩⟩ := ih hends hd fuel (by grind [hlead.length_le, Phrase.levels])
      exact ⟨_, readType_of_ref hlead hgap hmut hu, rfl⟩
  | tuple hlead helems ih =>
    have hlength := helems.length_lt
    obtain ⟨fuel, rfl⟩ : ∃ n, fuel = n + 1 := ⟨fuel - 1, by grind [hlead.length_le]⟩
    cases hd with
    | tuple hd ht =>
      have hread := ih nofun hd fuel (by grind [hlead.length_le, Phrase.levels])
      exact ⟨_, readType_of_tuple hlead hread ht, rfl⟩
  | path hlead hpath =>
    have hlength := hpath.length_lt
    obtain ⟨fuel, rfl⟩ : ∃ n, fuel = n + 2 := ⟨fuel - 2, by grind [hlead.length_le]⟩
    obtain ⟨hcolon, hangle⟩ := hpath.head?_ne_of_ends (hends rfl)
    cases hd with
    | path ht =>
      refine ⟨_, readType_of_path hlead hpath hcolon ?_ ht, rfl⟩
      rw [readArgs, Blanks.trimStart_eq hpath.blanks]
      split
      next => exact absurd rfl hangle
      next => rfl
  | apply hlead hpath hargs ih =>
    have hlength := hpath.length_lt
    have hlength' := hargs.length_lt
    obtain ⟨fuel, rfl⟩ : ∃ n, fuel = n + 2 := ⟨fuel - 2, by grind [hlead.length_le]⟩
    cases hd with
    | apply hd ht =>
      have hread := ih nofun hd fuel (by grind [hlead.length_le, Phrase.levels])
      exact ⟨_, readType_of_path hlead hpath (by simp) hread ht, rfl⟩
  | empty hlead =>
    obtain ⟨fuel, rfl⟩ : ∃ n, fuel = n + 1 := ⟨fuel - 1, by grind [hlead.length_le]⟩
    cases hd with
    | empty =>
      rw [Phrase.Reads, readList, hlead.trimStart_eq]
      exact if_pos rfl
  | items hitems ih =>
    have hlength := hitems.length_lt
    obtain ⟨fuel, rfl⟩ : ∃ n, fuel = n + 1 := ⟨fuel - 1, by grind⟩
    exact readList_of_items hitems (ih nofun hd fuel (by grind [Phrase.levels]))
  | last htype hgap ih =>
    have hlength := htype.length_lt
    obtain ⟨fuel, rfl⟩ : ∃ n, fuel = n + 1 := ⟨fuel - 1, by grind [hgap.length_le]⟩
    cases hd with
    | last hd =>
      obtain ⟨u, hu, ⟨⟩⟩ := ih (fun _ => hgap.ends_of_close) hd fuel
        (by grind [hgap.length_le, Phrase.levels])
      exact readItems_of_last hu hgap
  | cons htype hgap hitems ih ihitems =>
    have hlength := htype.length_lt
    have hlength' := hitems.length_lt
    obtain ⟨fuel, rfl⟩ : ∃ n, fuel = n + 1 := ⟨fuel - 1, by grind [hgap.length_le]⟩
    cases hd with
    | cons hd hds =>
      obtain ⟨u, hu, ⟨⟩⟩ := ih (fun _ => hgap.ends_of_comma) hd fuel
        (by grind [hgap.length_le, Phrase.levels])
      have hus := ihitems nofun hds fuel (by grind [hgap.length_le, Phrase.levels])
      exact readItems_of_cons hu hgap hus

/-! ## Whole texts -/

theorem readWhole_eq_ok_iff : readWhole s cs = .ok t ↔ ∃ p : Parse cs, Denotes s p.tree [t] := by
  constructor
  · intro h
    obtain ⟨⟨u, rest⟩, hread, h⟩ := bind_eq_ok_iff.1 h
    have hgap := blanks_trimStart rest
    dsimp only at h
    split at h
    next hrest =>
      obtain rfl := Except.ok.inj h
      obtain ⟨d, hd, hu⟩ := Phrase.Reads.derives .type ⟨u, hread, rfl⟩
      rw [hrest] at hgap
      rw [show rest.takeWhile Text.isBlank = rest by simpa using hgap.text.symm] at hgap
      exact ⟨⟨d, _, hd, hgap⟩, hu⟩
    next => cases h
  · rintro ⟨p, ht⟩
    have hends : Ends p.gap := p.blank.ends (by simp)
    obtain ⟨u, hread, ⟨⟩⟩ :=
      p.derives.reads (fun _ => hends) ht (4 * cs.length + 4) (by simp; omega)
    refine bind_eq_ok_iff.2 ⟨_, hread, ?_⟩
    simp only [p.blank.trimStart_eq]
    rfl

theorem parseType_eq_ok_iff {text : String} :
    parseType s text = .ok t ↔ ∃ p : Parse text.toList, Denotes s p.tree [t] := by
  rw [← readWhole_eq_ok_iff, parseType]
  cases readWhole s text.toList <;> simp [Except.mapError]

/-- A text is read exactly when it derives as a type with a denotation, which is what the reader
gives, and no text derives in two ways. -/
theorem parseType_accepts_grammar (s : Scope) (text : String) :
    (∀ t, parseType s text = .ok t ↔ ∃ p : Parse text.toList, Denotes s p.tree [t]) ∧
      ∀ p q : Parse text.toList, p = q :=
  ⟨fun _ => parseType_eq_ok_iff, Subsingleton.elim⟩

end Signature

end MoveTyping
