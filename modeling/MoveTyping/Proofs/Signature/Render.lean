import MoveTyping.Proofs.Address
import MoveTyping.Proofs.Signature.Spell

/-!
# Printed types

A type that was read from a text is printed in a form of its own: names in full, no blanks but those
behind a comma and behind `mut`. This form is read as the same type again. The exceptions are the
primitive string, which has no keyword, and names behind a `&` that begin with the word `mut`.

## Main definitions

* `Ty.parts` — the types within a type.
* `Signature.Scope.Stable` — the names of a scope survive being printed.
* `Signature.Prints` — the printed form of a type is read as the type.
-/

namespace MoveTyping

namespace Ty

/-- The type itself and all types within it. -/
def parts : Ty → List Ty
  | generic base args => generic base args :: partsOf args
  | tuple elems => tuple elems :: partsOf elems
  | ref inner mutable => ref inner mutable :: inner.parts
  | func params ret => func params ret :: (partsOf params ++ ret.parts)
  | t => [t]
where
  partsOf : List Ty → List Ty
    | [] => []
    | t :: ts => t.parts ++ partsOf ts

/-- The address in the name of a nominal type. -/
def address? : Ty → Option String
  | named name => name.address
  | generic base _ => base.address
  | _ => none

/-- Nothing in the type is the primitive string or has an address spelled `mut`. -/
structure Plain (t : Ty) : Prop where
  string : prim .string ∉ t.parts
  address : ∀ u ∈ t.parts, u.address? ≠ some "mut"

instance (t : Ty) : Decidable t.Plain :=
  decidable_of_iff (prim .string ∉ t.parts ∧ ∀ u ∈ t.parts, u.address? ≠ some "mut")
    ⟨fun h => ⟨h.1, h.2⟩, fun h => ⟨h.string, h.address⟩⟩

theorem mem_parts_self (t : Ty) : t ∈ t.parts := by
  cases t <;> simp [parts]

theorem parts_subset_partsOf {u : Ty} {ts : List Ty} (h : u ∈ ts) :
    u.parts ⊆ parts.partsOf ts := by
  induction ts with
  | nil => cases h
  | cons t ts ih =>
    rw [parts.partsOf]
    rcases List.mem_cons.1 h with rfl | h
    · exact List.subset_append_left _ _
    · exact List.Subset.trans (ih h) (List.subset_append_right _ _)

namespace Plain

variable {t u : Ty}

theorem mono (h : t.Plain) (hu : u.parts ⊆ t.parts) : u.Plain :=
  ⟨fun hmem => h.string (hu hmem), fun v hv => h.address v (hu hv)⟩

theorem inner {mutable : Bool} (h : (ref u mutable).Plain) : u.Plain :=
  h.mono (List.subset_cons_self _ _)

theorem arg {base : QName} {args : List Ty} (h : (generic base args).Plain) (hu : u ∈ args) :
    u.Plain :=
  h.mono (List.Subset.trans (parts_subset_partsOf hu) (List.subset_cons_self _ _))

theorem elem {elems : List Ty} (h : (tuple elems).Plain) (hu : u ∈ elems) : u.Plain :=
  h.mono (List.Subset.trans (parts_subset_partsOf hu) (List.subset_cons_self _ _))

end Plain

end Ty

namespace Signature

variable {s : Scope} {cs rest tail : List Char} {t u : Ty} {ts : List Ty}

/-- An address that is written as one word and denotes itself. -/
def Scope.Normal (s : Scope) (address : String) : Prop :=
  IsIdent address ∧ s.aliases.normalize address = address

/-- The scope's own names are words, the addresses that words denote are in normal form, and no type
parameter takes the place of the keyword `mut`. -/
structure Scope.Stable (s : Scope) : Prop where
  module : IsIdent s.module
  address : s.Normal s.address
  normalize : ∀ text, IsIdent text → s.Normal (s.aliases.normalize text)
  params : ∀ p ∈ s.typeParams, p.name ≠ "mut"

/-! ## Openings -/

theorem Seals.stop (h : Seals tail) : Blanks tail [] tail :=
  ⟨rfl, nofun, fun c hc => (h c hc).1⟩

theorem seals_colon : Seals (':' :: tail) := seals_cons rfl rfl

theorem seals_open : Seals ('<' :: tail) := seals_cons rfl rfl

/-- The text opens neither with a blank nor with the word `mut`. -/
structure Opens (cs : List Char) : Prop where
  lead : Blanks cs [] cs
  keyword : Mut cs false cs

/-- What does not begin with an `m` does not begin with the word `mut`. -/
theorem opens_cons {c : Char} (hblank : Text.isBlank c = false) (hc : c ≠ 'm') :
    Opens (c :: cs) := by
  refine ⟨⟨rfl, nofun, ?_⟩, .absent fun rest hrest => absurd (List.cons.inj hrest).1 hc⟩
  rintro _ ⟨⟩
  exact hblank

theorem IsIdent.opens {name : String} (h : IsIdent name) (hname : name ≠ "mut")
    (htail : Seals tail) : Opens (name.toList ++ tail) := by
  refine ⟨h.blanks, htail.keyword (.absent fun after hafter => ?_)⟩
  cases after with
  | nil => exact absurd (String.toList_inj.1 (hafter.trans (by rfl : _ = "mut".toList))) hname
  | cons c after => exact ⟨c, rfl, h.2 c (by simp [hafter])⟩

/-- Blanks in front of a phrase do not change what it denotes. -/
theorem Derives.indent {φ : Phrase} {d : Derivation} (h : Derives φ cs d rest)
    (hd : Denotes s d ts) : ∃ d', Derives φ (' ' :: cs) d' rest ∧ Denotes s d' ts := by
  have hblank : ∀ {cs lead after : List Char}, Blanks cs lead after →
      Blanks (' ' :: cs) (' ' :: lead) after := by
    rintro cs lead after ⟨rfl, hinside, hafter⟩
    exact ⟨rfl, List.forall_mem_cons.2 ⟨rfl, hinside⟩, hafter⟩
  induction h generalizing ts with
  | ref hlead hgap hmut hinner =>
    cases hd with
    | ref hd => exact ⟨_, .ref (hblank hlead) hgap hmut hinner, .ref hd⟩
  | tuple hlead helems =>
    cases hd with
    | tuple hd ht => exact ⟨_, .tuple (hblank hlead) helems, .tuple hd ht⟩
  | path hlead hpath =>
    cases hd with
    | path ht => exact ⟨_, .path (hblank hlead) hpath, .path ht⟩
  | apply hlead hpath hargs =>
    cases hd with
    | apply hd ht => exact ⟨_, .apply (hblank hlead) hpath hargs, .apply hd ht⟩
  | empty hlead =>
    cases hd with
    | empty => exact ⟨_, .empty (hblank hlead), .empty⟩
  | items _ ih =>
    obtain ⟨d', hderives, hd⟩ := ih hd
    exact ⟨d', .items hderives, hd⟩
  | last _ hgap ih =>
    cases hd with
    | last hd =>
      obtain ⟨d', hderives, hd⟩ := ih hd
      exact ⟨_, .last hderives hgap, .last hd⟩
  | cons _ hgap hitems ih =>
    cases hd with
    | cons hd hds =>
      obtain ⟨d', hderives, hd⟩ := ih hd
      exact ⟨_, .cons hderives hgap hitems, .cons hd hds⟩

/-! ## Printed forms -/

/-- The text `cs` up to `tail` is read as the type. -/
structure ReadsAs (s : Scope) (t : Ty) (cs tail : List Char) : Prop extends Opens cs where
  derives : ∃ d, Derives .type cs d tail ∧ Denotes s d [t]

/-- The printed form of a type is read as the type, whatever follows that cannot extend a word. -/
def Prints (s : Scope) (t : Ty) : Prop :=
  ∀ tail, Seals tail → ReadsAs s t (t.render.toList ++ tail) tail

theorem Prints.items (bracket : Bracket) (rest : List Char) (h : ∀ t ∈ ts, Prints s t)
    (hne : ts ≠ []) :
    ∃ d, Derives (.items bracket) ((Ty.render.renderList ts).toList ++ bracket.close :: rest) d
      rest ∧ Denotes s d ts := by
  induction ts with
  | nil => exact absurd rfl hne
  | cons t ts ih =>
    obtain ⟨ht, hts⟩ := List.forall_mem_cons.1 h
    cases ts with
    | nil =>
      obtain ⟨d, hderives, hd⟩ := (ht (bracket.close :: rest) seals_close).derives
      exact ⟨_, .last hderives seals_close.stop, .last hd⟩
    | cons u us =>
      obtain ⟨ds, hitems, hds⟩ := ih hts (by simp)
      obtain ⟨ds, hitems, hds⟩ := hitems.indent hds
      obtain ⟨d, hderives, hd⟩ := (ht (',' :: ' ' ::
        ((Ty.render.renderList (u :: us)).toList ++ bracket.close :: rest)) seals_comma).derives
      have htext : Ty.render.renderList (t :: u :: us) =
          t.render ++ ", " ++ Ty.render.renderList (u :: us) := rfl
      rw [htext, String.toList_append, String.toList_append, List.append_assoc, List.append_assoc]
      exact ⟨_, .cons hderives seals_comma.stop hitems, .cons hd hds⟩

/-- The printed forms of types, between brackets. -/
theorem Prints.list (bracket : Bracket) (rest : List Char) (h : ∀ t ∈ ts, Prints s t) :
    ∃ d, Derives (.list bracket) ((Ty.render.renderList ts).toList ++ bracket.close :: rest) d
      rest ∧ Denotes s d ts := by
  cases ts with
  | nil => exact ⟨_, .empty seals_close.stop, .empty⟩
  | cons t ts =>
    obtain ⟨d, hitems, hd⟩ := Prints.items bracket rest h (by simp)
    exact ⟨d, .items hitems, hd⟩

theorem Prints.ref (h : Prints s t) (mutable : Bool) : Prints s (.ref t mutable) := by
  intro tail htail
  obtain ⟨⟨hlead, hkeyword⟩, d, hderives, hd⟩ := h tail htail
  cases mutable with
  | false =>
    have htext : (Ty.ref t false).render.toList ++ tail = '&' :: (t.render.toList ++ tail) := by
      simp [Ty.render]
    rw [htext]
    have hopens : Opens ('&' :: (t.render.toList ++ tail)) := opens_cons rfl (by decide)
    exact ⟨hopens, _, .ref hopens.lead hlead hkeyword hderives, .ref hd⟩
  | true =>
    have htext : (Ty.ref t true).render.toList ++ tail =
        '&' :: 'm' :: 'u' :: 't' :: ' ' :: (t.render.toList ++ tail) := by
      simp [Ty.render]
    rw [htext]
    obtain ⟨d', hderives, hd⟩ := hderives.indent hd
    have hopens : Opens ('&' :: 'm' :: 'u' :: 't' :: ' ' :: (t.render.toList ++ tail)) :=
      opens_cons rfl (by decide)
    have hgap : Blanks ('m' :: 'u' :: 't' :: ' ' :: (t.render.toList ++ tail)) []
        ('m' :: 'u' :: 't' :: ' ' :: (t.render.toList ++ tail)) := ⟨rfl, nofun, by simp; rfl⟩
    exact ⟨hopens, _, .ref hopens.lead hgap (.present (by simp; rfl)) hderives, .ref hd⟩

/-- Types in round brackets. -/
theorem Prints.brackets (h : ∀ u ∈ ts, Prints s u) (ht : IsTuple ts t)
    (hrender : t.render = "(" ++ Ty.render.renderList ts ++ ")") : Prints s t := by
  intro tail _
  obtain ⟨d, hlist, hd⟩ := Prints.list .round tail h
  have htext : t.render.toList ++ tail =
      '(' :: ((Ty.render.renderList ts).toList ++ ')' :: tail) := by
    simp [hrender]
  rw [htext]
  have hopens : Opens ('(' :: ((Ty.render.renderList ts).toList ++ ')' :: tail)) :=
    opens_cons rfl (by decide)
  exact ⟨hopens, _, .tuple hopens.lead hlist, .tuple hd ht⟩

/-! ## Names -/

/-- The text is a name with these segments, whatever follows that cannot extend a word. -/
def NameText (text : String) (segments : List String) : Prop :=
  ∀ tail, Seals tail → Opens (text.toList ++ tail) ∧
    ∃ path, PathAt (text.toList ++ tail) path tail ∧ path.segments = segments

theorem IsIdent.nameText {name : String} (h : IsIdent name) (hname : name ≠ "mut") :
    NameText name [name] := by
  intro tail htail
  have hident : Ident (name.toList ++ tail) name.toList tail := h.ident fun c hc => (htail c hc).2
  exact ⟨h.opens hname htail, _, .mk hident .nil htail.stop, by simp [PathText.segments]⟩

theorem nameText_full {address module name : String} (haddress : IsIdent address)
    (hmodule : IsIdent module) (hname : IsIdent name) (hmut : address ≠ "mut") :
    NameText (QName.full address module name).render [address, module, name] := by
  intro tail htail
  have htext : (QName.full address module name).render =
      address ++ "::" ++ module ++ "::" ++ name := by
    simp [QName.render, QName.full, QName.render.segment, String.append_assoc]
  rw [htext]
  refine ⟨?_, _, (pathAt_full haddress hmodule hname htail).2, by simp [PathText.segments]⟩
  simp only [String.toList_append, List.append_assoc]
  exact haddress.opens hmut seals_colon

theorem NameText.prints {text : String} {segments : List String} (h : NameText text segments)
    (ht : Names s segments [] t) (hrender : t.render = text) : Prints s t := by
  intro tail htail
  rw [hrender]
  obtain ⟨hopens, path, hpath, rfl⟩ := h tail htail
  exact ⟨hopens, _, .path hopens.lead hpath, .path ht⟩

theorem NameText.prints_applied {text : String} {segments : List String}
    (h : NameText text segments) (ht : Names s segments ts t) (hts : ∀ u ∈ ts, Prints s u)
    (hrender : t.render = text ++ "<" ++ Ty.render.renderList ts ++ ">") : Prints s t := by
  intro tail _
  obtain ⟨d, hlist, hd⟩ := Prints.list .angle tail hts
  have htext : t.render.toList ++ tail =
      text.toList ++ '<' :: ((Ty.render.renderList ts).toList ++ '>' :: tail) := by
    simp [hrender]
  rw [htext]
  obtain ⟨hopens, path, hpath, rfl⟩ := h _ seals_open
  exact ⟨hopens, _, .apply hopens.lead hpath hlist, .apply hd ht⟩

/-- Nominal types are printed with their full names. -/
theorem IsNominal.prints {address module name : String} (haddress : s.Normal address)
    (hmodule : IsIdent module) (hname : IsIdent name)
    (h : IsNominal (.full address module name) ts t) (ht : t.Plain)
    (hts : ∀ u ∈ ts, u.Plain → Prints s u) : Prints s t := by
  have hnames : Names s [address, module, name] ts t := .full (haddress.2.symm ▸ h)
  have htext : address ≠ "mut" →
      NameText (QName.full address module name).render [address, module, name] :=
    nameText_full haddress.1 hmodule hname
  cases h with
  | string => exact absurd (Ty.mem_parts_self _) ht.string
  | named =>
    have hmut : address ≠ "mut" := fun h => ht.address _ (Ty.mem_parts_self _) (congrArg some h)
    exact (htext hmut).prints hnames rfl
  | generic =>
    have hmut : address ≠ "mut" := fun h => ht.address _ (Ty.mem_parts_self _) (congrArg some h)
    exact (htext hmut).prints_applied hnames (fun u hu => hts u hu (ht.arg hu)) rfl

theorem isIdent_of_keyword : ∀ kind ∈ Prim.keywords, IsIdent kind.render ∧ kind.render ≠ "mut" := by
  decide +kernel

/-- A type that is spelled by a name is printed as a name. -/
theorem Names.prints {segments : List String} (hs : s.Stable) (h : Names s segments ts t)
    (hsegments : ∀ segment ∈ segments, IsIdent segment) (ht : t.Plain)
    (hts : ∀ u ∈ ts, u.Plain → Prints s u) : Prints s t := by
  cases h with
  | @param name _ p hp =>
    obtain rfl : p.name = name := by simpa using List.find?_some hp
    have hident := hsegments p.name List.mem_cons_self
    exact (hident.nameText (hs.params p (List.mem_of_find?_eq_some hp))).prints (.param hp) rfl
  | vector hparam =>
    have htext : NameText "vector" ["vector"] := IsIdent.nameText (by decide) (by decide)
    exact htext.prints_applied (.vector hparam) (fun u hu => hts u hu (ht.arg hu)) rfl
  | @primitive kind _ hkind hparam =>
    obtain ⟨hident, hmut⟩ := isIdent_of_keyword kind hkind
    exact (hident.nameText hmut).prints (.primitive hkind hparam) rfl
  | own _ _ _ _ hnominal =>
    exact hnominal.prints hs.address hs.module (hsegments _ (by simp)) ht hts
  | inModule hnominal =>
    exact hnominal.prints hs.address (hsegments _ (by simp)) (hsegments _ (by simp)) ht hts
  | full hnominal =>
    exact hnominal.prints (hs.normalize _ (hsegments _ (by simp))) (hsegments _ (by simp))
      (hsegments _ (by simp)) ht hts

/-! ## Round trip -/

theorem Ident.isIdent {name : List Char} (h : Ident cs name rest) : IsIdent (.ofList name) :=
  ⟨by simpa using h.ne_nil, by simpa using h.inside⟩

theorem PathAt.isIdent {path : PathText} (h : PathAt cs path rest) :
    ∀ segment ∈ path.segments, IsIdent segment := by
  have hothers : ∀ {cs rest : List Char} {others : List (List Char × List Char)},
      Others cs others rest → ∀ other ∈ others, IsIdent (.ofList other.2) := by
    intro cs rest others h
    induction h with
    | nil => simp
    | cons _ hname _ ih => exact List.forall_mem_cons.2 ⟨hname.isIdent, ih⟩
  obtain ⟨hhead, hrest, _⟩ := h
  simp only [PathText.segments, List.forall_mem_cons, List.forall_mem_map]
  exact ⟨hhead.isIdent, hothers hrest⟩

/-- The types that are read from a text have printed forms that are read. -/
theorem Derives.prints {φ : Phrase} {d : Derivation} (hs : s.Stable) (h : Derives φ cs d rest)
    (hd : Denotes s d ts) : ∀ t ∈ ts, t.Plain → Prints s t := by
  induction h generalizing ts with
  | ref _ _ _ _ ih =>
    cases hd with
    | ref hd =>
      simp only [List.forall_mem_singleton]
      exact fun hplain => (ih hd _ List.mem_cons_self hplain.inner).ref _
  | tuple _ _ ih =>
    cases hd with
    | tuple hd ht =>
      simp only [List.forall_mem_singleton]
      intro hplain
      cases ht with
      | unit => exact .brackets (by simp) .unit rfl
      | single => exact ih hd _ List.mem_cons_self hplain
      | tuple => exact .brackets (fun u hu => ih hd u hu (hplain.elem hu)) .tuple rfl
  | path _ hpath =>
    cases hd with
    | path ht =>
      simp only [List.forall_mem_singleton]
      exact fun hplain => ht.prints hs hpath.isIdent hplain (by simp)
  | apply _ hpath _ ih =>
    cases hd with
    | apply hd ht =>
      simp only [List.forall_mem_singleton]
      exact fun hplain => ht.prints hs hpath.isIdent hplain (ih hd)
  | empty =>
    cases hd with
    | empty => simp
  | items _ ih => exact ih hd
  | last _ _ ih =>
    cases hd with
    | last hd => exact ih hd
  | cons _ _ _ ih ihitems =>
    cases hd with
    | cons hd hds =>
      exact List.forall_mem_cons.2 ⟨ih hd _ List.mem_cons_self, ihitems hds⟩

/-- A type that was read from a text is read again from its printed form. -/
theorem parseType_render (hs : s.Stable) {text : String} (h : parseType s text = .ok t)
    (ht : t.Plain) : parseType s t.render = .ok t := by
  obtain ⟨p, hp⟩ := parseType_eq_ok_iff.1 h
  have hprints : Prints s t := p.derives.prints hs hp t List.mem_cons_self ht
  obtain ⟨-, d, hderives, hd⟩ := hprints [] seals_nil
  rw [List.append_nil] at hderives
  exact parseType_eq_ok_iff.2 ⟨⟨d, [], hderives, seals_nil.stop⟩, hd⟩

/-! ## The standard aliases -/

theorem isIdentChar_of_isHexDigit {c : Char} (h : isHexDigit c = true) : isIdentChar c = true := by
  have hfacts : ∀ n < 128, isHexDigit (.ofNat n) = true → isIdentChar (.ofNat n) = true := by
    decide +kernel
  have hc := hfacts c.toNat (toNat_lt_of_isHexDigit h)
  rw [Char.ofNat_toNat] at hc
  exact hc h

theorem normalize_standard {text : String} (h : IsIdent text) (hstd : text ≠ "std")
    (hsui : text ≠ "sui") :
    Aliases.standard.normalize text = .ofList ((canonicalHex? text.toList).getD text.toList) := by
  have hget : Aliases.standard.get? text = none := by
    simp [Aliases.standard, Aliases.insert, Aliases.get?, Table.get?_insert, hstd, hsui,
      Aliases.empty]
  have hbare : bareAddress text.toList = text.toList := by
    unfold bareAddress
    split
    next rest hrest =>
      have hat : isIdentChar '@' = true := h.2 '@' (by simp [hrest])
      cases hat
    next => rfl
  simp only [Aliases.normalize, hget, hbare, String.ofList_toList]

/-- With the standard aliases every word denotes an address in normal form. -/
theorem normal_standard {text : String} (h : IsIdent text) :
    IsIdent (Aliases.standard.normalize text) ∧
      Aliases.standard.normalize (Aliases.standard.normalize text) =
        Aliases.standard.normalize text := by
  by_cases hstd : text = "std"
  · subst hstd
    decide +kernel
  by_cases hsui : text = "sui"
  · subst hsui
    decide +kernel
  have htext := normalize_standard h hstd hsui
  cases hhex : canonicalHex? text.toList with
  | none =>
    rw [hhex, Option.getD_none, String.ofList_toList] at htext
    rw [htext]
    exact ⟨h, htext⟩
  | some hex =>
    rw [hhex, Option.getD_some] at htext
    have hidem := canonicalHex?_idem hhex
    obtain ⟨digits, rfl, hdigits⟩ := canonicalHex?_digits hhex
    have hident : IsIdent (.ofList ('0' :: 'x' :: digits)) := by
      refine ⟨by simp, fun c hc => ?_⟩
      rw [String.toList_ofList] at hc
      rcases List.mem_cons.1 hc with rfl | hc
      · rfl
      · rcases List.mem_cons.1 hc with rfl | hc
        · rfl
        · exact isIdentChar_of_isHexDigit (hdigits c hc)
    have hne : ∀ key : String, canonicalHex? key.toList = none →
        String.ofList ('0' :: 'x' :: digits) ≠ key := by
      rintro key hkey rfl
      rw [String.toList_ofList, hidem] at hkey
      cases hkey
    rw [htext]
    refine ⟨hident, ?_⟩
    rw [normalize_standard hident (hne _ rfl) (hne _ rfl), String.toList_ofList, hidem,
      Option.getD_some]

/-- The names in the types of a struct `Coin<T: store>` of `0x2::coin`, beside a struct whose name is
the keyword. -/
def coinScope : Scope :=
  ⟨.standard, "0x2", "coin", ["Coin", "mut"], [⟨"T", .ofList [.store], false⟩]⟩

theorem stable_coinScope : coinScope.Stable where
  module := by decide +kernel
  address := ⟨by decide +kernel, by decide +kernel⟩
  normalize _ h := normal_standard h
  params := by decide +kernel

/-- References, a keyword as a name, a vector without its element type and names of all lengths. -/
def coinType : Ty :=
  .ref (.tuple
    [.generic (.full "0x2" "coin" "Coin")
      [.var "T" (.ofList [.store]), .named (.full "0x2" "object" "UID")],
     .ref (.ref (.generic (.full "0x1" "string" "String") [.generic .vector []]) true) false,
     .named (.full "0x2" "coin" "mut"), .unit]) true

theorem parseType_render_coin :
    parseType coinScope
        "& mut(Coin < T,(object::UID)>, & & mut std::string:: String<vector>, mut, ())" =
      .ok coinType ∧
    coinType.render = "&mut (0x2::coin::Coin<T, 0x2::object::UID>, " ++
      "&&mut 0x1::string::String<vector<>>, 0x2::coin::mut, ())" ∧
    parseType coinScope coinType.render = .ok coinType := by
  have h : parseType coinScope
      "& mut(Coin < T,(object::UID)>, & & mut std::string:: String<vector>, mut, ())" =
        .ok coinType := by decide +kernel
  exact ⟨h, by decide +kernel, parseType_render stable_coinScope h (by decide +kernel)⟩

end Signature

end MoveTyping
