import Mathlib.Data.List.TakeWhile
import MoveTyping.Signature.Parse

/-!
# The grammar of type texts

The texts that spell a type, and the types that they spell, said without the reader.

    type     ::= ws ( '&' ws [mut] type | '(' list(')') | path [ '<' list('>') ] )
    path     ::= ident ( '::' ws ident )* ws
    list(c)  ::= ws c | items(c)
    items(c) ::= type ws c | type ws ',' items(c)

Blanks and identifiers are runs that are as long as they can be, and behind a `&` the word `mut` is
always the keyword. So a phrase is judged together with the text that follows it. A derivation
records the rule and the blanks of every step; a text has no more than one.

## Main definitions

* `Signature.Derives` — the rules.
* `Signature.Denotes` — the types that a derivation spells.
* `Signature.Parse` — the derivations of a whole text as a type.
-/

namespace MoveTyping

namespace Prim

theorem ofKeyword?_render : ∀ kind ∈ keywords, ofKeyword? kind.render = some kind := by
  decide +kernel

theorem ofKeyword?_eq_some {name : String} {kind : Prim} (h : ofKeyword? name = some kind) :
    kind ∈ keywords ∧ kind.render = name :=
  ⟨List.mem_of_find?_eq_some h, by simpa using List.find?_some h⟩

theorem ofKeyword?_eq_none_iff {name : String} :
    ofKeyword? name = none ↔ ∀ kind ∈ keywords, kind.render ≠ name := by
  simp [ofKeyword?]

theorem render_ne_vector (kind : Prim) : kind.render ≠ "vector" := by
  cases kind <;> decide

end Prim

namespace Signature

variable {cs cs' cs₁ cs₂ cs₃ rest rest' : List Char}

/-! ## Words -/

/-- The text starts with `run`, which goes on as long as the characters satisfy `p`, and `rest`
follows. -/
structure Run (p : Char → Bool) (cs run rest : List Char) : Prop where
  text : cs = run ++ rest
  inside : ∀ c ∈ run, p c = true
  after : ∀ c ∈ rest.head?, p c = false

theorem run_iff {p : Char → Bool} {run : List Char} :
    Run p cs run rest ↔ run = cs.takeWhile p ∧ rest = cs.dropWhile p := by
  constructor
  · rintro ⟨rfl, hinside, hafter⟩
    have hrest : rest.takeWhile p = [] ∧ rest.dropWhile p = rest := by
      cases rest with
      | nil => exact ⟨rfl, rfl⟩
      | cons c rest => simp [hafter c rfl]
    rw [List.takeWhile_append_of_pos hinside, List.dropWhile_append_of_pos hinside]
    simp [hrest]
  · rintro ⟨rfl, rfl⟩
    refine ⟨List.takeWhile_append_dropWhile.symm, fun c hc => List.mem_takeWhile_imp hc, ?_⟩
    intro c hc
    have hhead := List.head?_dropWhile_not p cs
    rw [Option.mem_def] at hc
    rw [hc] at hhead
    exact hhead

theorem Run.unique {p : Char → Bool} {run run' : List Char} (h : Run p cs run rest)
    (h' : Run p cs run' rest') : run = run' ∧ rest = rest' := by
  rw [run_iff] at h h'
  exact ⟨h.1.trans h'.1.symm, h.2.trans h'.2.symm⟩

theorem Run.stop {p : Char → Bool} {run : List Char} (h : Run p cs run rest) : Run p rest [] rest :=
  ⟨rfl, by simp, h.after⟩

/-- A character that is not in the run and does not follow it does not come first either. -/
theorem Run.head?_ne {p : Char → Bool} {run : List Char} {c : Char} (h : Run p cs run rest)
    (hc : p c = false) (hrest : rest.head? ≠ some c) : cs.head? ≠ some c := by
  obtain ⟨rfl, hinside, _⟩ := h
  cases run with
  | nil => exact hrest
  | cons d run =>
    rintro ⟨⟩
    simpa [hc] using hinside c

theorem Run.length_le {p : Char → Bool} {run : List Char} (h : Run p cs run rest) :
    rest.length ≤ cs.length := by
  rw [h.text, List.length_append]
  exact Nat.le_add_left ..

/-- A run of blanks, which may be empty. -/
abbrev Blanks : List Char → List Char → List Char → Prop := Run Text.isBlank

/-- An identifier. -/
structure Ident (cs name rest : List Char) : Prop extends Run isIdentChar cs name rest where
  ne_nil : name ≠ []

/-- The keyword `mut`, which is there whenever the word stands on its own. -/
inductive Mut : List Char → Bool → List Char → Prop
  | present {rest : List Char} : (∀ c ∈ rest.head?, isIdentChar c = false) →
      Mut ('m' :: 'u' :: 't' :: rest) true rest
  | absent {cs : List Char} :
      (∀ rest, cs = 'm' :: 'u' :: 't' :: rest → ∃ c ∈ rest.head?, isIdentChar c = true) →
      Mut cs false cs

theorem mut_iff {mutable : Bool} : Mut cs mutable rest ↔ readMut cs = (mutable, rest) := by
  have hword : ∀ after : List Char, after.head?.any isIdentChar = false ↔
      ∀ c ∈ after.head?, isIdentChar c = false := fun after => by
    cases after <;> simp
  constructor
  · rintro (hafter | hafter)
    · simp [readMut, (hword _).2 hafter]
    · unfold readMut
      split
      · next after =>
        obtain ⟨c, hc, hident⟩ := hafter after rfl
        simp [Option.mem_def.1 hc, hident]
      · rfl
  · unfold readMut
    split
    · next after =>
      split
      · next hany =>
        rintro ⟨⟩
        refine .absent fun rest hrest => ?_
        obtain rfl : after = rest := by simpa using hrest
        exact (Option.any_eq_true ..).1 hany
      · next hany =>
        rintro ⟨⟩
        exact .present ((hword _).1 (by simpa using hany))
    · next hne =>
      rintro ⟨⟩
      exact .absent fun rest hrest => absurd hrest (hne rest)

/-! ## Phrases -/

/-- The brackets around a list. -/
inductive Bracket where
  | round | angle
deriving DecidableEq

def Bracket.close : Bracket → Char
  | round => ')'
  | angle => '>'

theorem Bracket.close_ne_comma (bracket : Bracket) : bracket.close ≠ ',' := by
  cases bracket <;> decide

theorem Bracket.close_eq (bracket : Bracket) :
    bracket.close = ')' ∨ bracket.close = '>' := by
  cases bracket <;> simp [close]

/-- What can be derived: a type, or types between commas up to the end of a bracket. -/
inductive Phrase where
  | type
  | list (bracket : Bracket)
  /-- At least one type. -/
  | items (bracket : Bracket)
deriving DecidableEq

/-- A name as it is written: its first segment, the others with the blanks in front of each, and
the blanks that follow. -/
structure PathText where
  head : List Char
  others : List (List Char × List Char)
  gap : List Char

def PathText.segments (path : PathText) : List String :=
  .ofList path.head :: path.others.map fun other => .ofList other.2

/-- The segments after the first one. -/
inductive Others : List Char → List (List Char × List Char) → List Char → Prop
  | nil {cs : List Char} : Others cs [] cs
  | cons {cs cs₁ cs₂ rest gap name : List Char} {others : List (List Char × List Char)} :
      Blanks cs gap cs₁ → Ident cs₁ name cs₂ → Others cs₂ others rest →
      Others (':' :: ':' :: cs) ((gap, name) :: others) rest

inductive PathAt : List Char → PathText → List Char → Prop
  | mk {cs cs₁ cs₂ rest head gap : List Char} {others : List (List Char × List Char)} :
      Ident cs head cs₁ → Others cs₁ others cs₂ → Blanks cs₂ gap rest →
      PathAt cs ⟨head, others, gap⟩ rest

/-- Which rules were used, with the blanks of each. -/
inductive Derivation where
  | ref (lead gap : List Char) (mutable : Bool) (inner : Derivation)
  | tuple (lead : List Char) (elems : Derivation)
  | path (lead : List Char) (path : PathText)
  | apply (lead : List Char) (path : PathText) (args : Derivation)
  | empty (lead : List Char)
  | last (type : Derivation) (gap : List Char)
  | cons (type : Derivation) (gap : List Char) (items : Derivation)

/-- The text starts with a phrase, and `rest` follows. -/
inductive Derives : Phrase → List Char → Derivation → List Char → Prop
  | ref {cs cs₁ cs₂ cs₃ rest lead gap : List Char} {mutable : Bool} {d : Derivation} :
      Blanks cs lead ('&' :: cs₁) → Blanks cs₁ gap cs₂ → Mut cs₂ mutable cs₃ →
      Derives .type cs₃ d rest → Derives .type cs (.ref lead gap mutable d) rest
  | tuple {cs cs₁ rest lead : List Char} {d : Derivation} :
      Blanks cs lead ('(' :: cs₁) → Derives (.list .round) cs₁ d rest →
      Derives .type cs (.tuple lead d) rest
  | path {cs cs₁ rest lead : List Char} {path : PathText} :
      Blanks cs lead cs₁ → PathAt cs₁ path rest → Derives .type cs (.path lead path) rest
  | apply {cs cs₁ cs₂ rest lead : List Char} {path : PathText} {d : Derivation} :
      Blanks cs lead cs₁ → PathAt cs₁ path ('<' :: cs₂) → Derives (.list .angle) cs₂ d rest →
      Derives .type cs (.apply lead path d) rest
  | empty {cs rest lead : List Char} {bracket : Bracket} :
      Blanks cs lead (bracket.close :: rest) → Derives (.list bracket) cs (.empty lead) rest
  | items {cs rest : List Char} {bracket : Bracket} {d : Derivation} :
      Derives (.items bracket) cs d rest → Derives (.list bracket) cs d rest
  | last {cs cs₁ rest gap : List Char} {bracket : Bracket} {d : Derivation} :
      Derives .type cs d cs₁ → Blanks cs₁ gap (bracket.close :: rest) →
      Derives (.items bracket) cs (.last d gap) rest
  | cons {cs cs₁ cs₂ rest gap : List Char} {bracket : Bracket} {d ds : Derivation} :
      Derives .type cs d cs₁ → Blanks cs₁ gap (',' :: cs₂) →
      Derives (.items bracket) cs₂ ds rest → Derives (.items bracket) cs (.cons d gap ds) rest

/-- A derivation of the whole text as a type. -/
structure Parse (cs : List Char) where
  tree : Derivation
  /-- The blanks at the end. -/
  gap : List Char
  derives : Derives .type cs tree gap
  blank : Blanks gap gap []

/-! ## Meaning -/

/-- The nominal type of a name with arguments. The library's string is a primitive type. -/
inductive IsNominal (q : QName) : List Ty → Ty → Prop
  | string : q = .stdString → IsNominal q [] (.prim .string)
  | named : q ≠ .stdString → IsNominal q [] (.named q)
  | generic {args : List Ty} : args ≠ [] → IsNominal q args (.generic q args)

/-- The tuple of some types, where no type makes the unit and one makes itself. -/
inductive IsTuple : List Ty → Ty → Prop
  | unit : IsTuple [] (.prim .unit)
  | single {t : Ty} : IsTuple [t] t
  | tuple {t u : Ty} {ts : List Ty} : IsTuple (t :: u :: ts) (.tuple (t :: u :: ts))

/-- The type of a name with arguments. A simple name is first of all that of a type parameter. -/
inductive Names (s : Scope) : List String → List Ty → Ty → Prop
  | param {name : String} {args : List Ty} {p : TypeParam} :
      s.typeParams.find? (·.name = name) = some p → Names s [name] args (.var p.name p.bounds)
  | vector {args : List Ty} : (∀ p ∈ s.typeParams, p.name ≠ "vector") →
      Names s ["vector"] args (.generic .vector args)
  | primitive {kind : Prim} {args : List Ty} : kind ∈ Prim.keywords →
      (∀ p ∈ s.typeParams, p.name ≠ kind.render) → Names s [kind.render] args (.prim kind)
  | own {name : String} {args : List Ty} {t : Ty} : (∀ p ∈ s.typeParams, p.name ≠ name) →
      name ≠ "vector" → (∀ kind ∈ Prim.keywords, kind.render ≠ name) → name ∈ s.structs →
      IsNominal (.full s.address s.module name) args t → Names s [name] args t
  | inModule {module name : String} {args : List Ty} {t : Ty} :
      IsNominal (.full s.address module name) args t → Names s [module, name] args t
  | full {address module name : String} {args : List Ty} {t : Ty} :
      IsNominal (.full (s.aliases.normalize address) module name) args t →
      Names s [address, module, name] args t

/-- The types that a derivation spells, one for a type and any number for a list. -/
inductive Denotes (s : Scope) : Derivation → List Ty → Prop
  | ref {lead gap : List Char} {mutable : Bool} {d : Derivation} {t : Ty} :
      Denotes s d [t] → Denotes s (.ref lead gap mutable d) [.ref t mutable]
  | tuple {lead : List Char} {d : Derivation} {ts : List Ty} {t : Ty} :
      Denotes s d ts → IsTuple ts t → Denotes s (.tuple lead d) [t]
  | path {lead : List Char} {path : PathText} {t : Ty} :
      Names s path.segments [] t → Denotes s (.path lead path) [t]
  | apply {lead : List Char} {path : PathText} {d : Derivation} {ts : List Ty} {t : Ty} :
      Denotes s d ts → Names s path.segments ts t → Denotes s (.apply lead path d) [t]
  | empty {lead : List Char} : Denotes s (.empty lead) []
  | last {d : Derivation} {gap : List Char} {t : Ty} :
      Denotes s d [t] → Denotes s (.last d gap) [t]
  | cons {d ds : Derivation} {gap : List Char} {t : Ty} {ts : List Ty} :
      Denotes s d [t] → Denotes s ds ts → Denotes s (.cons d gap ds) (t :: ts)

theorem isNominal_iff {q : QName} {args : List Ty} {t : Ty} :
    IsNominal q args t ↔ Ty.ofName q args = t := by
  unfold Ty.ofName
  constructor
  · rintro (hq | hq | hargs)
    · simp [hq]
    · simp [hq]
    · simp [hargs]
  · rintro rfl
    split
    · next hargs =>
      obtain rfl := List.isEmpty_iff.1 hargs
      split
      · next hq => exact .string hq
      · next hq => exact .named hq
    · next hargs => exact .generic (by simpa using hargs)

theorem isTuple_iff {ts : List Ty} {t : Ty} : IsTuple ts t ↔ Ty.ofElems ts = t := by
  constructor
  · rintro (_ | _ | _) <;> rfl
  · rintro rfl
    rcases ts with _ | ⟨t, _ | ⟨u, ts⟩⟩
    · exact .unit
    · exact .single
    · exact .tuple

theorem Scope.find?_param_eq_none_iff {s : Scope} {name : String} :
    s.typeParams.find? (·.name = name) = none ↔ ∀ p ∈ s.typeParams, p.name ≠ name := by
  simp

theorem names_iff {s : Scope} {segments : List String} {args : List Ty} {t : Ty} :
    Names s segments args t ↔ s.denote? segments args = some t := by
  constructor
  · rintro (hp | hparam | ⟨hkind, hparam⟩ | ⟨hparam, hvector, hprim, hstruct, ht⟩ | ht | ht)
    · simp only [Scope.denote?, hp]
    · simp [Scope.denote?, Scope.find?_param_eq_none_iff.2 hparam]
    · simp [Scope.denote?, Scope.find?_param_eq_none_iff.2 hparam,
        Prim.ofKeyword?_render _ hkind, Prim.render_ne_vector]
    · simp [Scope.denote?, Scope.find?_param_eq_none_iff.2 hparam, hvector,
        Prim.ofKeyword?_eq_none_iff.2 hprim, hstruct, isNominal_iff.1 ht]
    · simp only [Scope.denote?, isNominal_iff.1 ht]
    · simp only [Scope.denote?, isNominal_iff.1 ht]
  · intro h
    rcases segments with _ | ⟨name, _ | ⟨second, _ | ⟨third, _ | _⟩⟩⟩ <;>
      simp only [Scope.denote?, reduceCtorEq, Option.some.injEq] at h
    · split at h
      next p hp =>
        obtain rfl := Option.some.inj h
        exact .param hp
      next hparam =>
        have hparam := Scope.find?_param_eq_none_iff.1 hparam
        split at h
        next hvector =>
          subst hvector
          obtain rfl := Option.some.inj h
          exact .vector hparam
        next hvector =>
          split at h
          next kind hkind =>
            obtain ⟨hmem, rfl⟩ := Prim.ofKeyword?_eq_some hkind
            obtain rfl := Option.some.inj h
            exact .primitive hmem hparam
          next hprim =>
            obtain ⟨hstruct, ht⟩ := Option.ite_none_right_eq_some.1 h
            exact .own hparam hvector (Prim.ofKeyword?_eq_none_iff.1 hprim) (by simpa using hstruct)
              (isNominal_iff.2 (Option.some.inj ht))
    · exact .inModule (isNominal_iff.2 h)
    · exact .full (isNominal_iff.2 h)

/-! ## Unambiguity -/

theorem Mut.unique {m m' : Bool} (h : Mut cs m rest) (h' : Mut cs m' rest') :
    m = m' ∧ rest = rest' := by
  rw [mut_iff] at h h'
  simpa using h.symm.trans h'

theorem Ident.unique {name name' : List Char} (h : Ident cs name rest)
    (h' : Ident cs name' rest') : name = name' ∧ rest = rest' :=
  h.toRun.unique h'.toRun

theorem Ident.first {name : List Char} (h : Ident cs name rest) :
    ∃ c tail, cs = c :: tail ∧ isIdentChar c = true := by
  obtain ⟨c, tail, rfl⟩ := List.exists_cons_of_ne_nil h.ne_nil
  exact ⟨c, tail ++ rest, h.text, h.inside c List.mem_cons_self⟩

theorem Others.unique {others others' : List (List Char × List Char)}
    (h : Others cs others rest) (hrest : rest.head? ≠ some ':')
    (h' : Others cs others' rest') (hrest' : rest'.head? ≠ some ':') :
    others = others' ∧ rest = rest' := by
  induction h generalizing others' with
  | nil =>
    cases h' with
    | nil => exact ⟨rfl, rfl⟩
    | cons => exact absurd rfl hrest
  | cons hgap hname hothers ih =>
    cases h' with
    | nil => exact absurd rfl hrest'
    | cons hgap' hname' hothers' =>
      obtain ⟨rfl, rfl⟩ := hgap.unique hgap'
      obtain ⟨rfl, rfl⟩ := hname.unique hname'
      obtain ⟨rfl, rfl⟩ := ih hrest hothers'
      exact ⟨rfl, rfl⟩

/-- Nothing that stands here can be a part of the type before it. -/
def Ends (cs : List Char) : Prop :=
  ∀ gap after, Blanks cs gap after → ∀ c ∈ after.head?, c = ',' ∨ c = ')' ∨ c = '>'

theorem Blanks.ends {gap after : List Char} (h : Blanks cs gap after)
    (hafter : ∀ c ∈ after.head?, c = ',' ∨ c = ')' ∨ c = '>') : Ends cs := by
  intro gap' after' h'
  obtain ⟨rfl, rfl⟩ := h.unique h'
  exact hafter

/-- A path reaches up to a character that is no blank. -/
theorem PathAt.blanks {path : PathText} (h : PathAt cs path rest) : Blanks rest [] rest := by
  obtain ⟨_, _, hgap⟩ := h
  exact hgap.stop

theorem PathAt.first {path : PathText} (h : PathAt cs path rest) :
    ∃ c tail, cs = c :: tail ∧ isIdentChar c = true := by
  obtain ⟨hhead, _, _⟩ := h
  exact hhead.first

theorem Blanks.ends_of_comma {gap after : List Char} (h : Blanks cs gap (',' :: after)) : Ends cs :=
  h.ends (by simp)

theorem Blanks.ends_of_close {bracket : Bracket} {gap after : List Char}
    (h : Blanks cs gap (bracket.close :: after)) : Ends cs :=
  h.ends (by simpa using .inr bracket.close_eq)

theorem PathAt.unique {path path' : PathText} (h : PathAt cs path rest)
    (hrest : rest.head? ≠ some ':') (h' : PathAt cs path' rest')
    (hrest' : rest'.head? ≠ some ':') : path = path' ∧ rest = rest' := by
  obtain ⟨hhead, hothers, hgap⟩ := h
  obtain ⟨hhead', hothers', hgap'⟩ := h'
  obtain ⟨rfl, rfl⟩ := hhead.unique hhead'
  obtain ⟨rfl, rfl⟩ := hothers.unique (hgap.head?_ne rfl hrest) hothers' (hgap'.head?_ne rfl hrest')
  obtain ⟨rfl, rfl⟩ := hgap.unique hgap'
  exact ⟨rfl, rfl⟩

/-- Neither another segment nor arguments follow a path at the end of a type. -/
theorem PathAt.head?_ne_of_ends {path : PathText} (h : PathAt cs path rest) (hends : Ends rest) :
    rest.head? ≠ some ':' ∧ rest.head? ≠ some '<' := by
  have hfollow := hends _ _ h.blanks
  constructor <;> intro hc <;> simpa using hfollow _ hc

theorem PathAt.isIdentChar {c : Char} {path : PathText} (h : PathAt (c :: cs) path rest) :
    isIdentChar c = true := by
  obtain ⟨c, tail, ⟨⟩, hc⟩ := h.first
  exact hc

/-- A list with a type in it does not open with the end of the bracket. -/
theorem Derives.not_close {φ : Phrase} {bracket : Bracket} {d : Derivation} {lead after : List Char}
    (h : Derives φ cs d rest) (hφ : ∀ bracket, φ ≠ .list bracket) :
    ¬Blanks cs lead (bracket.close :: after) := by
  intro hclose
  induction h with
  | ref hlead | tuple hlead =>
    obtain ⟨_, hcs⟩ := hlead.unique hclose
    cases bracket <;> cases hcs
  | path hlead hpath | apply hlead hpath =>
    obtain ⟨_, rfl⟩ := hlead.unique hclose
    cases bracket <;> cases hpath.isIdentChar
  | empty | items => exact absurd rfl (hφ _)
  | last _ _ ih | cons _ _ _ ih => exact ih nofun hclose

/-- A text has at most one derivation. -/
theorem Derives.unique {φ : Phrase} {d d' : Derivation} (h : Derives φ cs d rest)
    (hends : φ = .type → Ends rest) (h' : Derives φ cs d' rest') (hends' : φ = .type → Ends rest') :
    d = d' ∧ rest = rest' := by
  induction h generalizing d' rest' with
  | ref hlead hgap hmut hinner ih =>
    cases h' with
    | ref hlead' hgap' hmut' hinner' =>
      obtain ⟨rfl, ⟨⟩⟩ := hlead.unique hlead'
      obtain ⟨rfl, rfl⟩ := hgap.unique hgap'
      obtain ⟨rfl, rfl⟩ := hmut.unique hmut'
      obtain ⟨rfl, rfl⟩ := ih hends hinner' hends'
      exact ⟨rfl, rfl⟩
    | tuple hlead' => cases (hlead.unique hlead').2
    | path hlead' hpath' | apply hlead' hpath' =>
      obtain ⟨_, rfl⟩ := hlead.unique hlead'
      cases hpath'.isIdentChar
  | tuple hlead hlist ih =>
    cases h' with
    | tuple hlead' hlist' =>
      obtain ⟨rfl, ⟨⟩⟩ := hlead.unique hlead'
      obtain ⟨rfl, rfl⟩ := ih nofun hlist' nofun
      exact ⟨rfl, rfl⟩
    | ref hlead' => cases (hlead.unique hlead').2
    | path hlead' hpath' | apply hlead' hpath' =>
      obtain ⟨_, rfl⟩ := hlead.unique hlead'
      cases hpath'.isIdentChar
  | path hlead hpath =>
    have hrest := hpath.head?_ne_of_ends (hends rfl)
    cases h' with
    | path hlead' hpath' =>
      have hrest' := hpath'.head?_ne_of_ends (hends' rfl)
      obtain ⟨rfl, rfl⟩ := hlead.unique hlead'
      obtain ⟨rfl, rfl⟩ := hpath.unique hrest.1 hpath' hrest'.1
      exact ⟨rfl, rfl⟩
    | apply hlead' hpath' =>
      obtain ⟨rfl, rfl⟩ := hlead.unique hlead'
      obtain ⟨rfl, rfl⟩ := hpath.unique hrest.1 hpath' (by simp)
      exact absurd rfl hrest.2
    | ref hlead' | tuple hlead' =>
      obtain ⟨_, rfl⟩ := hlead.unique hlead'
      cases hpath.isIdentChar
  | apply hlead hpath hargs ih =>
    cases h' with
    | path hlead' hpath' =>
      have hrest' := hpath'.head?_ne_of_ends (hends' rfl)
      obtain ⟨rfl, rfl⟩ := hlead.unique hlead'
      obtain ⟨rfl, rfl⟩ := hpath.unique (by simp) hpath' hrest'.1
      exact absurd rfl hrest'.2
    | apply hlead' hpath' hargs' =>
      obtain ⟨rfl, rfl⟩ := hlead.unique hlead'
      obtain ⟨rfl, ⟨⟩⟩ := hpath.unique (by simp) hpath' (by simp)
      obtain ⟨rfl, rfl⟩ := ih nofun hargs' nofun
      exact ⟨rfl, rfl⟩
    | ref hlead' | tuple hlead' =>
      obtain ⟨_, rfl⟩ := hlead.unique hlead'
      cases hpath.isIdentChar
  | empty hlead =>
    cases h' with
    | empty hlead' =>
      obtain ⟨rfl, ⟨⟩⟩ := hlead.unique hlead'
      exact ⟨rfl, rfl⟩
    | items hitems' => exact absurd hlead (hitems'.not_close nofun)
  | items hitems ih =>
    cases h' with
    | empty hlead' => exact absurd hlead' (hitems.not_close nofun)
    | items hitems' => exact ih nofun hitems' nofun
  | last htype hgap ih =>
    have hfollow := hgap.ends_of_close
    cases h' with
    | last htype' hgap' =>
      have hfollow' := hgap'.ends_of_close
      obtain ⟨rfl, rfl⟩ := ih (fun _ => hfollow) htype' (fun _ => hfollow')
      obtain ⟨rfl, ⟨⟩⟩ := hgap.unique hgap'
      exact ⟨rfl, rfl⟩
    | cons htype' hgap' =>
      have hfollow' := hgap'.ends_of_comma
      obtain ⟨rfl, rfl⟩ := ih (fun _ => hfollow) htype' (fun _ => hfollow')
      exact absurd (List.head_eq_of_cons_eq (hgap.unique hgap').2) (Bracket.close_ne_comma _)
  | cons htype hgap hitems ih ihitems =>
    have hfollow := hgap.ends_of_comma
    cases h' with
    | last htype' hgap' =>
      have hfollow' := hgap'.ends_of_close
      obtain ⟨rfl, rfl⟩ := ih (fun _ => hfollow) htype' (fun _ => hfollow')
      exact absurd (List.head_eq_of_cons_eq (hgap'.unique hgap).2) (Bracket.close_ne_comma _)
    | cons htype' hgap' hitems' =>
      have hfollow' := hgap'.ends_of_comma
      obtain ⟨rfl, rfl⟩ := ih (fun _ => hfollow) htype' (fun _ => hfollow')
      obtain ⟨rfl, ⟨⟩⟩ := hgap.unique hgap'
      obtain ⟨rfl, rfl⟩ := ihitems nofun hitems' nofun
      exact ⟨rfl, rfl⟩

instance : Subsingleton (Parse cs) where
  allEq p q := by
    have hends : ∀ p : Parse cs, Ends p.gap := fun p => p.blank.ends (by simp)
    obtain ⟨htree, hgap⟩ := p.derives.unique (fun _ => hends p) q.derives (fun _ => hends q)
    cases p
    cases q
    cases htree
    cases hgap
    rfl

end Signature

end MoveTyping
