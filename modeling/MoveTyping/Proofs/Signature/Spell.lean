import MoveTyping.Proofs.Signature.Accept

/-!
# Texts within texts

A phrase stays what it is when more text follows that cannot extend a word, so types that were read
on their own can be put together: a full name, with the texts of its arguments between brackets, is
read as the type of that name with the types of the arguments.

## Main definitions

* `Signature.applied` — the text of a full name with arguments.
-/

namespace MoveTyping.Signature

variable {s : Scope} {cs rest tail : List Char}

theorem isBlank_of_isIdentChar {c : Char} (h : isIdentChar c = true) : Text.isBlank c = false := by
  have hrange : 48 ≤ c.toNat ∧ c.toNat ≤ 122 := by
    change ((decide (65 ≤ c.val ∧ c.val ≤ 90) || (decide (97 ≤ c.val) && decide (c.val ≤ 122))) ||
      (decide (48 ≤ c.val) && decide (c.val ≤ 57))) || decide (c = '_') at h
    simp only [Bool.or_eq_true, Bool.and_eq_true, decide_eq_true_eq, UInt32.le_iff_toNat_le] at h
    rcases h with h | rfl
    · change (65 ≤ c.toNat ∧ c.toNat ≤ 90 ∨ 97 ≤ c.toNat ∧ c.toNat ≤ 122) ∨
        48 ≤ c.toNat ∧ c.toNat ≤ 57 at h
      omega
    · decide
  simp [Text.isBlank, Text.blankRanges]
  omega

/-! ## More text -/

/-- The text does not begin with a part of a word or a blank. -/
def Seals (tail : List Char) : Prop :=
  ∀ c ∈ tail.head?, Text.isBlank c = false ∧ isIdentChar c = false

theorem seals_cons {c : Char} (hblank : Text.isBlank c = false) (hident : isIdentChar c = false) :
    Seals (c :: tail) := by
  rintro _ ⟨⟩
  exact ⟨hblank, hident⟩

theorem seals_nil : Seals [] := nofun

theorem seals_comma : Seals (',' :: tail) := seals_cons rfl rfl

theorem seals_close {bracket : Bracket} : Seals (bracket.close :: tail) := by
  cases bracket <;> exact seals_cons rfl rfl

theorem Run.append {p : Char → Bool} {run : List Char} (h : Run p cs run rest)
    (htail : ∀ c ∈ tail.head?, p c = false) : Run p (cs ++ tail) run (rest ++ tail) := by
  obtain ⟨rfl, hinside, hafter⟩ := h
  refine ⟨List.append_assoc .., hinside, ?_⟩
  cases rest with
  | nil => exact htail
  | cons c rest => exact hafter

namespace Seals

theorem blanks (h : Seals tail) {gap : List Char} (hgap : Blanks cs gap rest) :
    Blanks (cs ++ tail) gap (rest ++ tail) :=
  hgap.append fun c hc => (h c hc).1

theorem ident (h : Seals tail) {name : List Char} (hname : Ident cs name rest) :
    Ident (cs ++ tail) name (rest ++ tail) :=
  ⟨hname.append fun c hc => (h c hc).2, hname.ne_nil⟩

theorem keyword (h : Seals tail) {mutable : Bool} (hmut : Mut cs mutable rest) :
    Mut (cs ++ tail) mutable (rest ++ tail) := by
  cases hmut with
  | present hafter =>
    refine .present ?_
    cases rest with
    | nil => exact fun c hc => (h c hc).2
    | cons c rest => exact hafter
  | absent hafter =>
    have hletter : ∀ {c after}, tail = c :: after → isIdentChar c = false := fun htail =>
      (h _ (by rw [htail, List.head?_cons, Option.mem_some_iff])).2
    refine .absent fun after hcs => ?_
    -- the word cannot reach into the text behind
    rcases cs with _ | ⟨c₁, _ | ⟨c₂, _ | ⟨c₃, cs⟩⟩⟩ <;>
      simp only [List.nil_append, List.cons_append, List.cons.injEq] at hcs
    · cases hletter hcs
    · cases hletter hcs.2
    · cases hletter hcs.2.2
    · obtain ⟨rfl, rfl, rfl, rfl⟩ := hcs
      obtain ⟨c, hc, hident⟩ := hafter cs rfl
      exact ⟨c, by rw [List.head?_append, Option.mem_def.1 hc]; rfl, hident⟩

theorem others (h : Seals tail) {others : List (List Char × List Char)}
    (hothers : Others cs others rest) : Others (cs ++ tail) others (rest ++ tail) := by
  induction hothers with
  | nil => exact .nil
  | cons hgap hname _ ih => exact .cons (h.blanks hgap) (h.ident hname) ih

theorem pathAt (h : Seals tail) {path : PathText} (hpath : PathAt cs path rest) :
    PathAt (cs ++ tail) path (rest ++ tail) := by
  obtain ⟨hhead, hothers, hgap⟩ := hpath
  exact .mk (h.ident hhead) (h.others hothers) (h.blanks hgap)

theorem derives (h : Seals tail) {φ : Phrase} {d : Derivation} (hd : Derives φ cs d rest) :
    Derives φ (cs ++ tail) d (rest ++ tail) := by
  induction hd with
  | ref hlead hgap hmut _ ih => exact .ref (h.blanks hlead) (h.blanks hgap) (h.keyword hmut) ih
  | tuple hlead _ ih => exact .tuple (h.blanks hlead) ih
  | path hlead hpath => exact .path (h.blanks hlead) (h.pathAt hpath)
  | apply hlead hpath _ ih => exact .apply (h.blanks hlead) (h.pathAt hpath) ih
  | empty hlead => exact .empty (h.blanks hlead)
  | items _ ih => exact .items ih
  | last _ hgap ih => exact .last ih (h.blanks hgap)
  | cons _ hgap _ ih ihitems => exact .cons ih (h.blanks hgap) ihitems

end Seals

/-! ## Lists of texts -/

/-- The texts of types between commas are a list with their types. -/
theorem exists_items {texts : List String} {ts : List Ty} (bracket : Bracket) (rest : List Char)
    (h : List.Forall₂ (fun text t => parseType s text = .ok t) texts ts) (hne : texts ≠ []) :
    ∃ d, Derives (.items bracket) ((",".intercalate texts).toList ++ bracket.close :: rest) d rest ∧
      Denotes s d ts := by
  induction h with
  | nil => exact absurd rfl hne
  | @cons text t texts ts htext hrest ih =>
    obtain ⟨p, ht⟩ := parseType_eq_ok_iff.1 htext
    cases hrest with
    | nil =>
      rw [String.intercalate_singleton]
      exact ⟨_, .last (seals_close.derives p.derives) (seals_close.blanks p.blank), .last ht⟩
    | cons =>
      obtain ⟨ds, hds, hts⟩ := ih nofun
      rw [String.intercalate_cons_cons]
      simp only [String.toList_append, List.append_assoc]
      exact ⟨_, .cons (seals_comma.derives p.derives) (seals_comma.blanks p.blank) hds,
        .cons ht hts⟩

/-! ## Full names -/

/-- The text is an identifier. -/
def IsIdent (text : String) : Prop := text ≠ "" ∧ ∀ c ∈ text.toList, isIdentChar c = true

instance (text : String) : Decidable (IsIdent text) :=
  decidable_of_iff (text ≠ "" ∧ text.toList.all isIdentChar = true) (by simp [IsIdent])

/-- The text of a full name with the texts of its arguments. -/
def applied (address module name : String) (args : List String) : String :=
  address ++ "::" ++ module ++ "::" ++ name ++
    if args.isEmpty then "" else "<" ++ ",".intercalate args ++ ">"

theorem IsIdent.ident {name : String} (h : IsIdent name)
    (htail : ∀ c ∈ tail.head?, isIdentChar c = false) :
    Ident (name.toList ++ tail) name.toList tail :=
  ⟨⟨rfl, h.2, htail⟩, by simpa using h.1⟩

/-- There are no blanks in front of an identifier. -/
theorem IsIdent.blanks {name : String} (h : IsIdent name) :
    Blanks (name.toList ++ tail) [] (name.toList ++ tail) := by
  refine ⟨rfl, nofun, fun c hc => isBlank_of_isIdentChar (h.2 c ?_)⟩
  cases hchars : name.toList with
  | nil => exact absurd (by simpa using hchars) h.1
  | cons d chars =>
    rw [hchars] at hc
    cases hc
    exact List.mem_cons_self

theorem pathAt_full {address module name : String} (haddress : IsIdent address)
    (hmodule : IsIdent module) (hname : IsIdent name) (htail : Seals tail) :
    Blanks ((address ++ "::" ++ module ++ "::" ++ name).toList ++ tail) []
        ((address ++ "::" ++ module ++ "::" ++ name).toList ++ tail) ∧
      PathAt ((address ++ "::" ++ module ++ "::" ++ name).toList ++ tail)
        ⟨address.toList, [([], module.toList), ([], name.toList)], []⟩ tail := by
  have hcolon : ∀ after, ∀ c ∈ (':' :: after : List Char).head?, isIdentChar c = false := by
    rintro - _ ⟨⟩
    rfl
  simp only [String.toList_append, List.append_assoc]
  refine ⟨haddress.blanks, .mk (haddress.ident (hcolon _)) ?_ ⟨rfl, nofun, ?_⟩⟩
  · exact .cons hmodule.blanks (hmodule.ident (hcolon _))
      (.cons hname.blanks (hname.ident fun c hc => (htail c hc).2) .nil)
  · exact fun c hc => (htail c hc).1

/-- A full name with arguments is read as the nominal type of that name. -/
theorem parseType_applied {address module name : String} (haddress : IsIdent address)
    (hmodule : IsIdent module) (hname : IsIdent name) {args : List String} {ts : List Ty}
    (hargs : List.Forall₂ (fun text t => parseType s text = .ok t) args ts) :
    parseType s (applied address module name args) =
      .ok (.ofName (.full (s.aliases.normalize address) module name) ts) := by
  have hnames : Names s
      (PathText.segments ⟨address.toList, [([], module.toList), ([], name.toList)], []⟩) ts
      (.ofName (.full (s.aliases.normalize address) module name) ts) := by
    simp only [PathText.segments, List.map_cons, List.map_nil, String.ofList_toList]
    exact .full (isNominal_iff.2 rfl)
  have hend : Blanks [] [] [] := ⟨rfl, by simp, by simp⟩
  rw [parseType_eq_ok_iff]
  cases args with
  | nil =>
    cases hargs
    obtain ⟨hlead, hpath⟩ := pathAt_full haddress hmodule hname seals_nil
    have htext : (applied address module name []).toList =
        (address ++ "::" ++ module ++ "::" ++ name).toList ++ [] := by simp [applied]
    rw [htext]
    exact ⟨⟨_, [], .path hlead hpath, hend⟩, .path hnames⟩
  | cons arg args =>
    obtain ⟨d, hd, hts⟩ := exists_items .angle [] hargs (List.cons_ne_nil arg args)
    obtain ⟨hlead, hpath⟩ := pathAt_full haddress hmodule hname
      (show Seals ('<' :: ((",".intercalate (arg :: args)).toList ++ ['>'])) from
        seals_cons rfl rfl)
    have htext : (applied address module name (arg :: args)).toList =
        (address ++ "::" ++ module ++ "::" ++ name).toList ++
          '<' :: ((",".intercalate (arg :: args)).toList ++ ['>']) := by simp [applied]
    rw [htext]
    exact ⟨⟨_, [], .apply hlead hpath (.items hd), hend⟩, .apply hts hnames⟩

end MoveTyping.Signature
