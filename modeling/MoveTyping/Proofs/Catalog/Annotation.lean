import MoveTyping.Infer.Annotation
import MoveTyping.Proofs.Catalog.Listed
import MoveTyping.Proofs.Scope.Qualified
import MoveTyping.Proofs.Signature.Spell
import MoveTyping.Tree.Build

/-!
# Annotations and signatures

A program and a catalog spell a library type in the same way, and each has its own reader: an
annotation is resolved, qualified and looked up in the tables of the catalog, while the text of a
signature is taken at its word. They agree on every struct that is a struct of its own. Where a
struct stands for a primitive, only the annotation knows of it.
-/

namespace MoveTyping

theorem Ty.ofName_eq_prim_iff {q : QName} {args : List Ty} {kind : Prim} :
    Ty.ofName q args = .prim kind ↔ kind = .string ∧ q = .stdString ∧ args = [] := by
  unfold Ty.ofName
  cases args with
  | nil => by_cases hq : q = .stdString <;> simp [hq, eq_comm]
  | cons => simp

namespace Catalog

variable {decl : Declaration} {c : Catalog} {d : ModuleDecl} {s : StructDecl} {p : Program}
  {r : NodeId} {address module name : String} {slice : Slice} {args : List Ty}

/-! ## Annotations that only the library knows -/

theorem resolve?_full_eq_none (hr : p.kind? r = some (.typePath (.full address module name) slice))
    (hlive : p.findStruct? c.aliases (some address) module name = none) :
    (⟨p, c.aliases⟩ : Scope).resolve? r = none := by
  obtain ⟨t, ht, -⟩ := Program.kind?_eq_some hr
  rw [Scope.resolve?, Scope.reference?_typePath hr]
  simp only [Option.bind_eq_bind, Option.bind_some, Scope.resolvePath?, ht, QName.full,
    Scope.targetModule?, Option.isSome_some, if_true, Scope.findModule?]
  simp only [Program.findStruct?, Option.bind_eq_bind] at hlive
  cases hm : p.findModule? c.aliases (some address) module with
  | none => rfl
  | some m =>
    rw [hm, Option.bind_some, List.find?_eq_none] at hlive
    refine List.find?_eq_none.2 fun item hitem => ?_
    have hstruct := hlive item hitem
    cases hk : p.kind? item with
    | none => simp
    | some kind =>
      rw [hk] at hstruct
      rw [Option.any_some]
      unfold NodeKind.declares
      split
      · simp
      · simp
      · simpa using hstruct
      · simp

theorem canonicalPath?_full (hr : p.kind? r = some (.typePath (.full address module name) slice)) :
    (⟨p, c.aliases⟩ : Scope).canonicalPath? r =
      some (.full (c.aliases.normalize address) module name) := by
  obtain ⟨t, ht, -⟩ := Program.kind?_eq_some hr
  rw [Scope.canonicalPath?, Scope.reference?_typePath hr]
  simp only [Option.bind_eq_bind, Option.bind_some, ht, QName.full, Scope.qualifyPath?]
  rfl

/-- An annotation that nothing live answers is left to the library. -/
theorem denote_eq_libraryType
    (hr : p.kind? r = some (.typePath (.full address module name) slice))
    (hlive : p.findStruct? c.aliases (some address) module name = none) :
    ((Env.ofProgram p c).denote r).1 = (Env.ofProgram p c).libraryType r
      ((p.list r.file slice).map fun node =>
        ((Env.ofProgram p c).denoteWithin (DepthLimit.standard.limit - 1) node).1) := by
  have hk : (Env.ofProgram p c).program.kind? r =
      some (.typePath (.full address module name) slice) := hr
  have hresolve : (Env.ofProgram p c).resolver.resolve r = none := resolve?_full_eq_none hr hlive
  have hkeyword : ∀ args, Env.keywordType? (.full address module name) args = none := fun _ => rfl
  change ((Env.ofProgram p c).denoteWithin (DepthLimit.standard.limit - 1 + 1) r).1 = _
  rw [Env.denoteWithin, hk]
  simp only [hkeyword, Env.namedType, hresolve, Option.bind_none, List.map_map]
  rfl

/-- What the library says about a struct that it declares. -/
theorem libraryType_eq (hload : load decl = .ok c) (hd : d ∈ decl.modules) (hs : s ∈ d.structs)
    (hnormal : c.aliases.normalize (c.aliases.normalize d.address) = c.aliases.normalize d.address)
    (haddress : c.aliases.normalize address = c.aliases.normalize d.address)
    (hr : p.kind? r = some (.typePath (.full address d.name s.name) slice)) :
    (Env.ofProgram p c).libraryType r args =
      ((d.standIn? s.name).map Ty.prim).getD (.ofName (d.itemName c.aliases s.name) args) := by
  have hname : c.normalize (d.itemName c.aliases s.name) = d.itemName c.aliases s.name := by
    simp [normalize, ModuleDecl.itemName, QName.full, hnormal]
  have hcanonical : (⟨p, c.aliases⟩ : Scope).canonicalPath? r =
      some (d.itemName c.aliases s.name) := by
    rw [canonicalPath?_full hr, haddress, ModuleDecl.itemName]
  simp only [Env.libraryType, Env.ofProgram, Resolver.ofScope, hcanonical, primitive?, isStruct,
    record?, hname, primitives_load hload hd, isSome_structs_load hload hd hs]
  cases d.standIn? s.name <;> simp

open Signature in
/-- The text of a library type is read as the type of its annotation exactly when the struct stands
for no primitive, or is the string that texts know. -/
theorem parseType_eq_denote_iff {texts : List String} {scope : Signature.Scope}
    (hload : load decl = .ok c) (hd : d ∈ decl.modules) (hs : s ∈ d.structs)
    (hnormal : c.aliases.normalize (c.aliases.normalize d.address) = c.aliases.normalize d.address)
    (haddress : c.aliases.normalize address = c.aliases.normalize d.address)
    (hident : IsIdent address ∧ IsIdent d.name ∧ IsIdent s.name)
    (hr : p.kind? r = some (.typePath (.full address d.name s.name) slice))
    (hlive : p.findStruct? c.aliases (some address) d.name s.name = none)
    (hscope : scope.aliases = c.aliases)
    (hargs : List.Forall₂ (fun text node => parseType scope text =
        .ok ((Env.ofProgram p c).denoteWithin (DepthLimit.standard.limit - 1) node).1)
      texts (p.list r.file slice)) :
    parseType scope (applied address d.name s.name texts) = .ok ((Env.ofProgram p c).denote r).1 ↔
      ∀ kind, d.standIn? s.name = some kind →
        kind = .string ∧ d.itemName c.aliases s.name = .stdString ∧ texts = [] := by
  have hparse := parseType_applied hident.1 hident.2.1 hident.2.2
    (List.forall₂_map_right_iff.2 hargs)
  rw [hscope, haddress, ← ModuleDecl.itemName] at hparse
  rw [hparse, denote_eq_libraryType hr hlive, libraryType_eq hload hd hs hnormal haddress hr,
    Except.ok.injEq]
  have hnil : texts = [] ↔ p.list r.file slice = [] := by
    rw [← List.length_eq_zero_iff, ← List.length_eq_zero_iff, hargs.length_eq]
  cases hkind : d.standIn? s.name with
  | none => simp
  | some kind => simp [Ty.ofName_eq_prim_iff, hnil]

/-! ## A library where they part -/

def coinDecl : ModuleDecl :=
  { address := "0x5", name := "m"
    structs :=
      [{ name := "Coin", typeParams := ["T"] }, { name := "Wei", primitive := some "u64" }] }

/-- The alias is given with a leading zero, which look-ups drop and texts keep. -/
def bankDecl : Declaration :=
  { aliases := [("bank", "0x05")]
    modules := [coinDecl, { address := "bank", name := "b", structs := [{ name := "Note" }] }] }

def bankCatalog : Catalog := (load bankDecl).toOption.getD .empty

theorem load_bankDecl : load bankDecl = .ok bankCatalog := by
  have hok : (load bankDecl).toOption.isSome = true := by decide +kernel
  unfold bankCatalog
  cases h : load bankDecl with
  | error e =>
    rw [h] at hok
    cases hok
  | ok c => rfl

/-- The annotations `0x05::m::Coin<u8>`, `0x5::m::Wei` and `bank::b::Note`. -/
def walletTree : Tree := Build.tree 0 do
  let _ ← Build.typePath (.full "0x05" "m" "Coin") [← Build.typePath (.simple "u8") []]
  let _ ← Build.typePath (.full "0x5" "m" "Wei") []
  Build.typePath (.full "bank" "b" "Note") []

def wallet : Program := ⟨[walletTree], by decide⟩

/-- A struct of its own, spelled with another address than the library's. -/
theorem parseType_eq_denote_iff_coin :
    Signature.parseType (coinDecl.scope bankCatalog.aliases) "0x05::m::Coin<u8>" =
      .ok ((Env.ofProgram wallet bankCatalog).denote ⟨0, 1⟩).1 := by
  refine (@parseType_eq_denote_iff bankDecl bankCatalog coinDecl
    { name := "Coin", typeParams := ["T"] } wallet ⟨0, 1⟩ "0x05" ⟨0, 1⟩ ["u8"]
    (coinDecl.scope bankCatalog.aliases) load_bankDecl (by simp [bankDecl]) (by simp [coinDecl])
    (by decide +kernel) (by decide +kernel) (by decide +kernel) (by decide +kernel)
    (by decide +kernel) rfl (.cons (by decide +kernel) .nil)).2 fun kind hkind => ?_
  have hnone : coinDecl.standIn? "Coin" = none := by decide +kernel
  cases hnone.symm.trans hkind

/-- The annotation of a struct that stands for a primitive denotes the primitive, and the text the
struct. Where the normal form of an address has another normal form, the annotation finds
nothing. -/
theorem parseType_ne_denote :
    (Signature.parseType (coinDecl.scope bankCatalog.aliases) "0x5::m::Wei" =
        .ok (.named (.full "0x5" "m" "Wei")) ∧
      ((Env.ofProgram wallet bankCatalog).denote ⟨0, 2⟩).1 = .prim .u64) ∧
    (Signature.parseType (coinDecl.scope bankCatalog.aliases) "bank::b::Note" =
        .ok (.named (.full "0x05" "b" "Note")) ∧
      ((Env.ofProgram wallet bankCatalog).denote ⟨0, 3⟩).1 = .unknown) := by
  refine ⟨⟨?_, ?_⟩, ?_, ?_⟩ <;> decide +kernel

end Catalog

end MoveTyping
