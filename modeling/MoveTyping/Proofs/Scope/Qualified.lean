import MoveTyping.Proofs.Scope.Outline
import MoveTyping.Tree.Build

/-!
# Resolution and qualification

A reference that resolves to an item of a live module has two full names: that of the item, and the
one that qualification gives to the reference. The two searches are separate, and part in two
places. Qualification keeps the name under which a reference has the item, also where an import
renames it, and it knows the modules of the prelude before it looks for live ones.

## Main definitions

* `Scope.PreludeTakes` — the prelude says where the module of a path is.
-/

namespace MoveTyping

theorem Program.fullName?_eq_some_iff {p : Program} {d : NodeId} {address module name : String} :
    p.fullName? d = some (address, module, name) ↔
      (p.kind? d).bind NodeKind.declaredName? = some name ∧
        ∃ m, p.parent? d = some m ∧ p.identity? m = some (address, module) := by
  simp only [fullName?, Option.bind_eq_bind, Option.bind_eq_some_iff, Prod.exists, pure,
    Option.some.injEq, Prod.mk.injEq]
  grind

/-- Only the nodes of the program have items. -/
theorem Program.exists_mem_ids_of_mem_items {p : Program} {d m : NodeId} (h : d ∈ p.items m) :
    ∃ t ∈ p.trees, m ∈ t.ids := by
  unfold items at h
  split at h
  next hk =>
    obtain ⟨t, ht, hk⟩ := kind?_eq_some hk
    exact ⟨t, List.mem_of_find?_eq_some ht, Arena.mem_ids_of_kind? hk⟩
  next => cases h

namespace Scope

variable {s : Scope} {t : Tree} {r d m : NodeId} {address module name declared : String}
  {space : Space} {path : QName}

/-- The module of a path is one of the prelude, at another address. The surrounding module says
nothing about it. -/
def PreludeTakes (s : Scope) (r : NodeId) (path : QName) (address : String) : Prop :=
  path.address = none ∧ ∃ t ∈ s.program.tree? r.file, ∃ enclosing ∈ t.enclosingModule? r,
    ∃ e ∈ prelude, e.member = none ∧ path.module = some e.module ∧
      s.moduleFrom? t enclosing e.module = none ∧
      s.aliases.normalize e.address ≠ s.aliases.normalize address

theorem identity?_of_findModule? {given : Option String} (h : s.findModule? given module = some m) :
    ∃ declared, s.program.identity? m = some (declared, module) ∧
      ∀ a ∈ given, s.aliases.normalize declared = s.aliases.normalize a := by
  have hm := List.find?_some h
  simp only [Option.any_eq_true, Prod.exists, Bool.and_eq_true, decide_eq_true_eq] at hm
  obtain ⟨declared, name, hid, rfl, haddress⟩ := hm
  refine ⟨declared, hid, fun a ha => ?_⟩
  cases ha
  simpa using haddress

theorem declaredName?_of_item? (h : s.item? m name space = some d) :
    (s.program.kind? d).bind NodeKind.declaredName? = some name := by
  obtain ⟨kind, hk, hdeclares⟩ := kind?_of_item? h
  rw [hk]
  exact NodeKind.declaredName?_of_declares hdeclares

/-- A module has one address in the prelude. -/
theorem prelude_address :
    ∀ e ∈ prelude, ∀ e' ∈ prelude, e.module = e'.module → e.address = e'.address := by
  decide +kernel

/-- The module that a path leads to is the one that the surrounding module says, and without its
word the first of this name. -/
theorem targetModule?_cases (h : s.targetModule? t r none module = some m)
    (hid : s.program.identity? m = some (address, declared)) :
    ∃ enclosing, t.enclosingModule? r = some enclosing ∧
      ((∃ qualifier, s.moduleFrom? t enclosing module = some (some (qualifier, declared)) ∧
          s.aliases.normalize qualifier = s.aliases.normalize address) ∨
        (s.moduleFrom? t enclosing module = none ∧ s.findModule? none module = some m)) := by
  simp only [targetModule?, Option.isSome_none, Bool.false_eq_true, if_false, Option.bind_eq_bind,
    Option.bind_eq_some_iff] at h
  obtain ⟨enclosing, henclosing, h⟩ := h
  refine ⟨enclosing, henclosing, ?_⟩
  unfold moduleFrom?
  split at h
  next hself =>
    cases h
    exact .inl ⟨address, by rw [if_pos hself, hid], rfl⟩
  next hself =>
    rw [if_neg hself]
    cases himport : moduleImport? t enclosing module with
    | some i =>
      rw [himport] at h
      obtain ⟨found, hfound, hsame⟩ := identity?_of_findModule? h
      cases hid.symm.trans hfound
      exact .inl ⟨i.address, rfl, (hsame _ rfl).symm⟩
    | none =>
      rw [himport] at h
      dsimp only at h ⊢
      split at h
      next hown =>
        cases h
        have hown : declared = module := by simpa [hid] using hown
        exact .inl ⟨address, by simp [hid, hown], rfl⟩
      next hown =>
        refine .inr ⟨?_, h⟩
        cases hidentity : s.program.identity? enclosing with
        | none => rfl
        | some identity =>
          rw [hidentity, Option.any_some, decide_eq_true_eq] at hown
          simp [hown]

/-- The module that a path leads to is named by its qualification, where the prelude lets it. -/
theorem qualifyModule?_of_targetModule? (ht : s.program.tree? r.file = some t)
    (haddress : path.address = none) (hmodule : path.module = some module)
    (h : s.targetModule? t r none module = some m)
    (hid : s.program.identity? m = some (address, declared)) :
    ∃ qualifier, s.qualifyModule? t r module = some (qualifier, declared) ∧
      (s.aliases.normalize qualifier = s.aliases.normalize address ↔
        ¬s.PreludeTakes r path address) := by
  obtain ⟨enclosing, henclosing, hfrom⟩ := targetModule?_cases h hid
  have htakes : s.PreludeTakes r path address ↔ ∃ e ∈ prelude, e.member = none ∧
      e.module = module ∧ s.moduleFrom? t enclosing module = none ∧
      s.aliases.normalize e.address ≠ s.aliases.normalize address := by
    unfold PreludeTakes
    simp only [haddress, ht, henclosing, hmodule, Option.mem_some_iff, exists_eq_left',
      Option.some.injEq, true_and]
    grind
  unfold qualifyModule?
  rw [henclosing, Option.bind_some, htakes]
  rcases hfrom with ⟨qualifier, hfrom, hsame⟩ | ⟨hfrom, hfind⟩
  · exact ⟨qualifier, by rw [hfrom], by simp [hfrom, hsame]⟩
  · obtain ⟨found, hfound, -⟩ := identity?_of_findModule? hfind
    cases hid.symm.trans hfound
    rw [hfrom]
    dsimp only
    split
    next e he =>
      have hmem := List.mem_of_find?_eq_some he
      have hentry := List.find?_some he
      simp only [Bool.and_eq_true, Option.isNone_iff_eq_none, decide_eq_true_eq] at hentry
      refine ⟨e.address, rfl, ?_⟩
      constructor
      · rintro hsame ⟨e', hmem', -, rfl, -, hother⟩
        exact hother (prelude_address e' hmem' e hmem hentry.2.symm ▸ hsame)
      · intro hnot
        by_contra hother
        exact hnot ⟨e, hmem, hentry.1, hentry.2, rfl, hother⟩
    next hnone =>
      refine ⟨address, by rw [hfind, Option.bind_some, hid], iff_of_true rfl ?_⟩
      rintro ⟨e, hmem, hmember, rfl, -⟩
      exact List.find?_eq_none.1 hnone e hmem (by simp [hmember])

/-- A reference to an item has the item's full name exactly when it calls the item by its own name
and no module of the prelude takes its path. -/
theorem canonicalPath?_eq_full_iff (href : s.reference? r = some (path, space))
    (hd : s.resolve? r = some d) (hfull : s.program.fullName? d = some (address, module, name))
    (howned : ∀ m, d ∈ s.program.items m → s.program.parent? d = some m) :
    s.canonicalPath? r = some (.full (s.aliases.normalize address) module name) ↔
      path.name = name ∧ ¬s.PreludeTakes r path address := by
  simp only [resolve?, href, Option.bind_eq_bind, Option.bind_some, resolvePath?,
    Option.bind_eq_some_iff] at hd
  obtain ⟨t, ht, hd⟩ := hd
  obtain ⟨hname, m, hparent, hid⟩ := Program.fullName?_eq_some_iff.1 hfull
  simp only [canonicalPath?, href, ht, Option.bind_eq_bind, Option.bind_some, qualifyPath?]
  split at hd
  next haddress hmodule =>
    -- both searches find the same declaration, whose module is asked for the rest of the name
    have hnot : ¬s.PreludeTakes r path address := by
      rintro ⟨-, -, -, -, -, e, -, -, he, -⟩
      cases hmodule.symm.trans he
    simp [haddress, hmodule, qualify?, hd, hparent, hid, QName.full, hnot]
  next module' hmodule =>
    obtain ⟨target, htarget, hd⟩ := Option.bind_eq_some_iff.1 hd
    obtain rfl : m = target :=
      Option.some.inj (hparent.symm.trans (howned target (List.mem_of_find?_eq_some hd)))
    obtain rfl : path.name = name :=
      Option.some.inj ((declaredName?_of_item? hd).symm.trans hname)
    cases haddress : path.address with
    | none =>
      rw [haddress] at htarget
      obtain ⟨qualifier, hqualify, hsame⟩ :=
        qualifyModule?_of_targetModule? ht haddress hmodule htarget hid
      simp [hmodule, hqualify, QName.full, hsame]
    | some a =>
      have hnot : ¬s.PreludeTakes r path address := by
        rintro ⟨hnone, -⟩
        cases haddress.symm.trans hnone
      rw [haddress] at htarget
      obtain ⟨found, hfound, hsame⟩ := identity?_of_findModule? htarget
      cases hid.symm.trans hfound
      simp [hmodule, haddress, QName.full, hnot, ← hsame]
  next => cases hd

/-! ## Where the names agree and where they part -/

/-- `module 0x5::m { fun foo() }` and `module 0x5::vector { fun foo() }` -/
def offerTree : Tree := Build.tree 0 do
  let _ ← Build.module "0x5" "m" [← Build.function "foo" [] [] none none]
  Build.module "0x5" "vector" [← Build.function "foo" [] [] none none]

/-- `use 0x05::m as coins; use 0x05::m::foo as bar; const C = (coins::foo, bar, vector::foo);` -/
def useTree : Tree := Build.tree 1 do
  let coins ← Build.node (.use "0x05" "m" none (some "coins"))
  let bar ← Build.node (.use "0x05" "m" (some "foo") (some "bar"))
  let paths ← [.inModule "coins" "foo", .simple "bar", .inModule "vector" "foo"].mapM fun path =>
    Build.path path []
  let c ← Build.node (.const "C" none (some (← Build.tuple paths)))
  Build.module "0x6" "n" [coins, bar, c]

/-- A function that two modules list, and a path to it through the first of them. -/
def sharedTree : Tree := Build.tree 2 do
  let foo ← Build.function "foo" [] [] none none
  let _ ← Build.module "0x5" "a" [foo]
  let _ ← Build.module "0x5" "b" [foo]
  Build.path (.full "0x5" "a" "foo") []

def offerScope : Scope := ⟨⟨[offerTree, useTree, sharedTree], by decide⟩, .standard⟩

/-- An alias of the module changes nothing. -/
theorem canonicalPath?_eq_full_iff_coins :
    offerScope.resolve? ⟨1, 2⟩ = some ⟨0, 0⟩ ∧
      offerScope.canonicalPath? ⟨1, 2⟩ = some (.full "0x5" "m" "foo") := by
  have hd : offerScope.resolve? ⟨1, 2⟩ = some ⟨0, 0⟩ := by decide +kernel
  have howned : ∀ t ∈ offerScope.program.trees, ∀ m ∈ t.ids, ⟨0, 0⟩ ∈ offerScope.program.items m →
      offerScope.program.parent? ⟨0, 0⟩ = some m := by decide +kernel
  have hlibrary : ∀ e ∈ prelude, e.module ≠ "coins" := by decide +kernel
  have hiff := @canonicalPath?_eq_full_iff offerScope ⟨1, 2⟩ ⟨0, 0⟩ "0x5" "m" "foo" .value
    (.inModule "coins" "foo") (by decide +kernel) hd (by decide +kernel) fun m hm => by
      obtain ⟨t, ht, hmem⟩ := Program.exists_mem_ids_of_mem_items hm
      exact howned t ht m hmem hm
  refine ⟨hd, hiff.2 ⟨rfl, ?_⟩⟩
  rintro ⟨-, -, -, -, -, e, he, -, hmodule, -⟩
  exact hlibrary e he (Option.some.inj hmodule).symm

/-- A member that an import renames is qualified by its new name, and a live module with a name of
the prelude by the address of the library. An item that two modules list belongs to the last. -/
theorem canonicalPath?_ne_fullName :
    (offerScope.resolve? ⟨1, 3⟩ = some ⟨0, 0⟩ ∧
      offerScope.program.fullName? ⟨0, 0⟩ = some ("0x5", "m", "foo") ∧
      offerScope.canonicalPath? ⟨1, 3⟩ = some (.full "0x5" "m" "bar")) ∧
    (offerScope.resolve? ⟨1, 4⟩ = some ⟨0, 2⟩ ∧
      offerScope.program.fullName? ⟨0, 2⟩ = some ("0x5", "vector", "foo") ∧
      offerScope.canonicalPath? ⟨1, 4⟩ = some (.full "0x1" "vector" "foo")) ∧
    (offerScope.resolve? ⟨2, 3⟩ = some ⟨2, 0⟩ ∧
      offerScope.program.fullName? ⟨2, 0⟩ = some ("0x5", "b", "foo") ∧
      offerScope.canonicalPath? ⟨2, 3⟩ = some (.full "0x5" "a" "foo")) := by
  refine ⟨⟨?_, ?_, ?_⟩, ⟨?_, ?_, ?_⟩, ?_, ?_, ?_⟩ <;> decide +kernel

end Scope

end MoveTyping
