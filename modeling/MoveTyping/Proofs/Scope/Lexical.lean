import MoveTyping.Tree.Build
import MoveTyping.Proofs.Scope.Binding

/-!
# Lexical scoping

What a simple name denotes as a value, said by rules: the scopes around the name are looked at from
the inside out, and the first one that declares it counts. The search for a declaration follows
these rules.

A `let` declares its names for the statements after it. So a name that denotes one of them stands in
a later statement of the same block.

## Main definitions

* `Scope.Offers`, `Scope.Brings` — what modules declare, and what their imports bring in.
* `Scope.Denotes` — what a name denotes.
* `Tree.Behind` — a node stands behind a statement in its block.

## Main results

* `Scope.simple?_eq_some_iff_denotes` — the search finds what a name denotes.
* `Scope.Denotes.after_let` — where the names of a `let` are seen.
-/

namespace MoveTyping

namespace Scope

variable {s : Scope} {t : Tree} {x : String} {child scope d : NodeId}

/-! ## Modules -/

section Modules

variable (s : Scope)

/-- A function or a constant of this name. -/
def IsValue (name : String) (item : NodeId) : Prop :=
  (∃ typeParams params ret body,
      s.program.kind? item = some (.function name typeParams params ret body)) ∨
    ∃ ty value, s.program.kind? item = some (.const name ty value)

/-- The first function or constant of this name in a module. -/
def Offers (module : NodeId) (name : String) (decl : NodeId) : Prop :=
  IsFirst (s.IsValue name) (s.program.items module) decl

/-- A live module of this name, at an address that is the same in normal form. -/
def IsNamed (address name : String) (module : NodeId) : Prop :=
  module ∈ s.program.modules ∧
    s.program.moduleKey? s.aliases module = some (s.aliases.normalize address, name)

/-- The live module of this name, the first one where a file has several. -/
def IsLive (address name : String) (module : NodeId) : Prop :=
  s.IsNamed address name module ∧
    ∀ other, s.IsNamed address name other → module.index ≤ other.index

/-- A `use` declaration brings in a function or a constant of a live module as `x`. -/
def Brings (t : Tree) (x : String) (use decl : NodeId) : Prop :=
  ∃ address module member asName target,
    t.kind? use = some (.use address module (some member) asName) ∧ member ≠ "Self" ∧
      asName.getD member = x ∧ s.IsLive address module target ∧ s.Offers target member decl

end Modules

theorem item?_eq_some_iff {module : NodeId} {name : String} :
    s.item? module name .value = some d ↔ s.Offers module name d := by
  refine find?_eq_some_iff_isFirst fun item _ => ?_
  unfold IsValue
  cases hk : s.program.kind? item with
  | none => simp
  | some kind => cases kind <;> simp [NodeKind.declares]

/-- The modules of a file are in the order of its nodes. -/
theorem pairwise_modules (p : Program) :
    p.modules.Pairwise fun m m' => m.file = m'.file → m.index < m'.index := by
  refine List.pairwise_flatMap.2 ⟨fun t ht => ?_, ?_⟩
  · have hroots : t.roots.Pairwise fun m m' => m.index < m'.index := by
      rw [t.roots_eq_filter]
      exact t.pairwise_ids.filter _
    have hmodules : t.modules.Pairwise fun m m' => m.index < m'.index := hroots.filter _
    refine hmodules.imp ?_
    intro m m' hlt _
    exact hlt
  · refine p.sorted.imp fun {t u} hlt m hm m' hm' hfile => ?_
    rw [Tree.file_of_mem_modules hm, Tree.file_of_mem_modules hm'] at hfile
    exact absurd hfile (Nat.ne_of_lt hlt)

theorem findModule?_eq_some_iff_isFirst {address name : String} {m : NodeId} :
    s.findModule? (some address) name = some m ↔
      IsFirst (s.IsNamed address name) s.program.modules m := by
  refine find?_eq_some_iff_isFirst fun m hm => ?_
  unfold IsNamed Program.moduleKey?
  cases s.program.identity? m with
  | none => simp
  | some identity => simp [hm, and_comm]

theorem IsLive.of_isFirst (hdistinct : s.program.DistinctModules s.aliases) {address name : String}
    {m : NodeId} (h : IsFirst (s.IsNamed address name) s.program.modules m) :
    s.IsLive address name m := by
  obtain ⟨before, after, hsplit, hm, hbefore⟩ := h
  refine ⟨hm, fun m' hm' => ?_⟩
  have hfile : m.file = m'.file := hdistinct m hm.1 m' hm'.1 (hm.2.trans hm'.2.symm)
  have hmem := hm'.1
  have hsorted := pairwise_modules s.program
  rw [hsplit] at hmem hsorted
  rcases List.mem_append.1 hmem with hmem | hmem
  · exact absurd hm' (hbefore m' hmem)
  · rcases List.mem_cons.1 hmem with rfl | hmem
    · exact Nat.le_refl _
    · have hrest := (List.pairwise_cons.1 (List.pairwise_append.1 hsorted).2.1).1
      exact Nat.le_of_lt (hrest m' hmem hfile)

theorem IsLive.unique (hdistinct : s.program.DistinctModules s.aliases) {address name : String}
    {m m' : NodeId} (h : s.IsLive address name m) (h' : s.IsLive address name m') : m = m' := by
  have hfile : m.file = m'.file := hdistinct m h.1.1 m' h'.1.1 (h.1.2.trans h'.1.2.symm)
  have hindex : m.index = m'.index := Nat.le_antisymm (h.2 m' h'.1) (h'.2 m h.1)
  cases m
  cases m'
  simp_all

theorem findModule?_eq_some_iff (hdistinct : s.program.DistinctModules s.aliases)
    {address name : String} {m : NodeId} :
    s.findModule? (some address) name = some m ↔ s.IsLive address name m := by
  rw [findModule?_eq_some_iff_isFirst]
  refine ⟨.of_isFirst hdistinct, fun h => ?_⟩
  obtain ⟨m', hfirst⟩ := exists_isFirst h.1.1 h.1
  rwa [h.unique hdistinct (.of_isFirst hdistinct hfirst)]

/-- What a `use` declaration brings in as `x`. -/
def broughtIn? (s : Scope) (t : Tree) (x : String) (use : NodeId) : Option NodeId :=
  (((t.kind? use).bind Import.ofKind?).filter (·.visible = x)).bind fun i => do
    let member ← i.member
    let target ← s.findModule? (some i.address) i.module
    s.item? target member .value

theorem imported?_eq_findSome? (s : Scope) (t : Tree) (module : NodeId) (x : String) :
    s.imported? t module x .value = (t.items module).findSome? (s.broughtIn? t x) :=
  findSome?_filter_filterMap _ _ _ _

/-- An import with a member comes from a `use` of that member, which is not `Self`. -/
theorem use_of_member {kind : NodeKind} {i : Import} {member : String}
    (hi : Import.ofKind? kind = some i) (hmember : i.member = some member) :
    ∃ asName, kind = .use i.address i.module (some member) asName ∧ member ≠ "Self" ∧
      i.visible = asName.getD member := by
  cases kind with
  | use address module given asName =>
    cases hi
    obtain ⟨rfl, hself⟩ := Option.filter_eq_some_iff.1 hmember
    have hself : member ≠ "Self" := by simpa using hself
    exact ⟨asName, rfl, hself, by cases asName <;> simp [Option.filter, hself]⟩
  | _ => cases hi

theorem broughtIn?_eq_some_iff (hdistinct : s.program.DistinctModules s.aliases) (use d : NodeId) :
    s.broughtIn? t x use = some d ↔ s.Brings t x use d := by
  simp only [broughtIn?, Option.bind_eq_bind, Option.bind_eq_some_iff, Option.filter_eq_some_iff,
    decide_eq_true_eq, findModule?_eq_some_iff hdistinct, item?_eq_some_iff]
  constructor
  · rintro ⟨i, ⟨⟨kind, hk, hi⟩, hx⟩, member, hmember, target, htarget, hd⟩
    obtain ⟨asName, rfl, hself, hvisible⟩ := use_of_member hi hmember
    exact ⟨_, _, member, asName, target, hk, hself, hvisible ▸ hx, htarget, hd⟩
  · rintro ⟨address, module, member, asName, target, hk, hself, hx, htarget, hd⟩
    have hi : Import.ofKind? (.use address module (some member) asName) =
        some ⟨address, module, some member, x⟩ := by
      cases asName <;> simp_all [Import.ofKind?, Option.filter]
    exact ⟨_, ⟨⟨_, hk, hi⟩, rfl⟩, member, rfl, target, htarget, hd⟩

/-! ## What a name denotes -/

/-- What the name `x` denotes at `child`: what the first scope around it declares. The first module
ends the search, with its own items before its imports. -/
inductive Denotes (s : Scope) (t : Tree) (x : String) : (child decl : NodeId) → Prop where
  | here {child scope decl : NodeId} :
    child ∈ t.children scope → t.Declares x child scope decl → Denotes s t x child decl
  | outer {child scope decl : NodeId} :
    child ∈ t.children scope → t.isModule scope = false → (∀ d, ¬t.Declares x child scope d) →
    Denotes s t x scope decl → Denotes s t x child decl
  | item {child scope decl : NodeId} :
    child ∈ t.children scope → t.isModule scope = true → s.Offers scope x decl →
    Denotes s t x child decl
  | imported {child scope use decl : NodeId} :
    child ∈ t.children scope → t.isModule scope = true → (∀ d, ¬s.Offers scope x d) →
    IsFirst (fun use => ∃ d, s.Brings t x use d) (t.items scope) use → s.Brings t x use decl →
    Denotes s t x child decl

theorem isModule_of_kind? {kind : NodeKind} (hk : t.kind? scope = some kind) :
    t.isModule scope = kind.isModule := by
  rw [Tree.isModule, hk, Option.any_some]

theorem isModule_eq_false_of_declares (h : t.Declares x child scope d) :
    t.isModule scope = false := by
  rcases h with ⟨hk, -⟩ | ⟨hk, -⟩ <;> exact isModule_of_kind? hk

/-- The search from a node goes to the scope around it. -/
theorem simple?_of_mem (ht : t.Nested) (hc : child ∈ t.children scope) {kind : NodeKind}
    (hk : t.kind? scope = some kind) (space : Space) :
    s.simple? t child x space =
      if kind.isModule then (s.item? scope x space).or (s.imported? t scope x space)
      else (local? t kind child x space).or (s.simple? t scope x space) := by
  rw [simple?, ht.bottomUp.ancestors_of_some (ht.parent?_eq_some_iff_mem.2 hc), lookUp?, hk]
  refine ite_congr rfl (fun _ => rfl) fun _ => ?_
  cases local? t kind child x space <;> rfl

theorem imported?_eq_some_iff (hdistinct : s.program.DistinctModules s.aliases) :
    s.imported? t scope x .value = some d ↔
      ∃ use, IsFirst (fun use => ∃ d, s.Brings t x use d) (t.items scope) use ∧
        s.Brings t x use d := by
  rw [imported?_eq_findSome?]
  exact findSome?_eq_some_iff_isFirst fun use _ => broughtIn?_eq_some_iff hdistinct use

section Search

variable (ht : t.Nested) (hparams : t.ParamsOnly)
  (hdistinct : s.program.DistinctModules s.aliases)

include ht hparams hdistinct

theorem denotes_of_simple? (h : s.simple? t child x .value = some d) : s.Denotes t x child d := by
  -- on the way up the places grow, so the distance to the end of the file falls
  induction hn : t.size - child.index using Nat.strongRecOn generalizing child with
  | _ n ih =>
    cases hp : t.parent? child with
    | none => simp [simple?, Tree.ancestors_of_none hp, lookUp?] at h
    | some scope =>
      have hc := ht.parent?_eq_some_iff_mem.1 hp
      have hlt := ht.bottomUp.index_lt_of_parent? hp
      obtain ⟨kind, hk⟩ := Tree.exists_kind?_of_mem_children hc
      rw [simple?_of_mem ht hc hk] at h
      have hmodule := isModule_of_kind? hk
      split at h
      next hisModule =>
        rw [hisModule] at hmodule
        rcases Option.or_eq_some_iff.1 h with hitem | ⟨hnone, himported⟩
        · exact .item hc hmodule (item?_eq_some_iff.1 hitem)
        · obtain ⟨use, hfirst, hbrings⟩ := (imported?_eq_some_iff hdistinct).1 himported
          refine .imported hc hmodule (fun d' hd' => ?_) hfirst hbrings
          simp [item?_eq_some_iff.2 hd'] at hnone
      next hisModule =>
        rcases Option.or_eq_some_iff.1 h with hlocal | ⟨hnone, houter⟩
        · exact .here hc ((local?_eq_some_iff ht hparams hk hc).1 hlocal)
        · rw [eq_false_of_ne_true hisModule] at hmodule
          refine .outer hc hmodule (fun d' hd' => ?_)
            (ih (t.size - scope.index) (by omega) houter rfl)
          simp [(local?_eq_some_iff ht hparams hk hc).2 hd'] at hnone

theorem simple?_of_denotes (h : s.Denotes t x child d) : s.simple? t child x .value = some d := by
  induction h with
  | here hc hd =>
    obtain ⟨kind, hk⟩ := Tree.exists_kind?_of_mem_children hc
    have hmodule : kind.isModule = false :=
      (isModule_of_kind? hk).symm.trans (isModule_eq_false_of_declares hd)
    rw [simple?_of_mem ht hc hk, hmodule, (local?_eq_some_iff ht hparams hk hc).2 hd]
    rfl
  | outer hc hmodule hnone _ ih =>
    obtain ⟨kind, hk⟩ := Tree.exists_kind?_of_mem_children hc
    have hlocal : local? t kind _ x .value = none :=
      Option.eq_none_iff_forall_ne_some.2 fun d' hd' =>
        hnone d' ((local?_eq_some_iff ht hparams hk hc).1 hd')
    rw [isModule_of_kind? hk] at hmodule
    rw [simple?_of_mem ht hc hk, hmodule, hlocal]
    exact ih
  | item hc hmodule hoffers =>
    obtain ⟨kind, hk⟩ := Tree.exists_kind?_of_mem_children hc
    rw [isModule_of_kind? hk] at hmodule
    rw [simple?_of_mem ht hc hk, hmodule, item?_eq_some_iff.2 hoffers]
    rfl
  | imported hc hmodule hnone hfirst hbrings =>
    obtain ⟨kind, hk⟩ := Tree.exists_kind?_of_mem_children hc
    have hitem : s.item? _ x .value = none :=
      Option.eq_none_iff_forall_ne_some.2 fun d' hd' => hnone d' (item?_eq_some_iff.1 hd')
    rw [isModule_of_kind? hk] at hmodule
    rw [simple?_of_mem ht hc hk, hmodule, hitem]
    exact (imported?_eq_some_iff hdistinct).2 ⟨_, hfirst, hbrings⟩

/-- The search for a simple name finds what the name denotes. -/
theorem simple?_eq_some_iff_denotes :
    s.simple? t child x .value = some d ↔ s.Denotes t x child d :=
  ⟨denotes_of_simple? ht hparams hdistinct, simple?_of_denotes ht hparams hdistinct⟩

end Search

end Scope

/-! ## Where a `let` is seen -/

namespace Tree

variable {t : Tree} {x y : String} {p p' c d r stmt stmt' : NodeId}

theorem HasName.inside (h : t.HasName x p d) : t.Inside d p := by
  induction h with
  | name => exact .refl t _
  | elem hk he _ ih =>
    refine ih.trans (.of_mem ?_)
    simpa [Arena.children, hk, NodeKind.children] using he

/-- Between a pattern and a name in it there are patterns only. -/
theorem HasName.kind?_between (h : t.HasName x p d) (ht : t.Nested) (hd : t.Inside d c)
    (hc : t.Inside c p) :
    (∃ bound, t.kind? c = some (.bindName bound)) ∨
      ∃ elems, t.kind? c = some (.bindTuple elems) := by
  induction h with
  | name hk =>
    obtain rfl := hd.antisymm hc ht.bottomUp
    exact .inl ⟨x, hk⟩
  | @elem p e d elems hk he h ih =>
    rcases hc.eq_or_exists with rfl | ⟨e', he', hc⟩
    · exact .inr ⟨elems, hk⟩
    · have he : e ∈ t.children p := by simpa [Arena.children, hk, NodeKind.children] using he
      obtain rfl := ht.part_unique he he' h.inside (hd.trans hc)
      exact ih hd hc

/-- A name belongs to one `let` only. -/
theorem HasName.let_unique (h : t.HasName x p d) (h' : t.HasName y p' d) (ht : t.Nested)
    {ty init ty' init' : Option NodeId} (hk : t.kind? stmt = some (.letStmt p ty init))
    (hk' : t.kind? stmt' = some (.letStmt p' ty' init')) : stmt = stmt' := by
  have hp : ∀ {stmt p ty init}, t.kind? stmt = some (.letStmt p ty init) → p ∈ t.children stmt := by
    intro stmt p ty init hk
    simp [Arena.children, hk, NodeKind.children]
  -- the pattern of one `let` is not inside that of the other, since the `let` would be between them
  have houter : ∀ {x p p' stmt ty init}, t.HasName x p' d → t.Inside d p → t.Inside p p' →
      t.kind? stmt = some (.letStmt p ty init) → p = p' := by
    intro x p p' stmt ty init h' hd hinside hk
    by_contra hne
    have hstmt := ht.inside_parent hinside hne (hp hk)
    rcases h'.kind?_between ht (hd.trans (.of_mem (hp hk))) hstmt with ⟨_, hkind⟩ | ⟨_, hkind⟩ <;>
      cases hk.symm.trans hkind
  obtain rfl : p = p' := by
    rcases ht.inside_total h.inside h'.inside with hinside | hinside
    · exact houter h' h.inside hinside hk
    · exact (houter h h'.inside hinside hk').symm
  exact ht.parent_unique (hp hk) (hp hk')

/-- A node stands behind a statement in its block: in a later statement, and neither in an earlier
one nor in the statement itself. -/
def Behind (t : Tree) (stmt r : NodeId) : Prop :=
  ∃ block stmts before after, t.kind? block = some (.block stmts) ∧
    t.list stmts = before ++ stmt :: after ∧ (∃ later ∈ after, t.Inside r later) ∧
    ∀ earlier ∈ before ++ [stmt], ¬t.Inside r earlier

theorem behind_of_split (ht : t.Nested) {block child : NodeId} {stmts : Slice}
    {before between after : List NodeId} (hk : t.kind? block = some (.block stmts))
    (hsplit : t.list stmts = (before ++ stmt :: between) ++ child :: after)
    (hr : t.Inside r child) : t.Behind stmt r := by
  have hlist : t.children block = t.list stmts := by simp [Arena.children, hk, NodeKind.children]
  have hnodup : (t.list stmts).Nodup := hlist ▸ ht.nodup_children block
  refine ⟨block, stmts, before, between ++ child :: after, hk, by simp [hsplit],
    ⟨child, by simp, hr⟩, fun earlier hearlier hinside => ?_⟩
  have hmem : earlier ∈ before ++ stmt :: between := by grind
  have hsame : earlier = child := by
    refine ht.part_unique (p := block) ?_ ?_ hinside hr <;> rw [hlist, hsplit]
    · exact List.mem_append_left _ hmem
    · simp
  rw [hsplit] at hnodup
  exact (List.nodup_append.1 hnodup).2.2 earlier hmem child List.mem_cons_self hsame

end Tree

namespace Scope

variable {s : Scope} {t : Tree} {x y : String} {r child d : NodeId}

theorem not_isValue_of_bindName (htree : s.program.tree? t.file = some t) {name : String}
    (hd : t.kind? d = some (.bindName y)) : ¬s.IsValue name d := by
  have hk : s.program.kind? d = some (.bindName y) := by
    rw [Program.kind?_eq (Tree.file_of_kind? hd ▸ htree), hd]
  rintro (⟨_, _, _, _, h⟩ | ⟨_, _, h⟩) <;> cases hk.symm.trans h

/-- A name that denotes a name of a `let` stands behind the `let`. -/
theorem Denotes.after_let (h : s.Denotes t x child d) (ht : t.Nested)
    (htree : s.program.tree? t.file = some t) {stmt pattern : NodeId} {ty init : Option NodeId}
    (hstmt : t.kind? stmt = some (.letStmt pattern ty init)) (hname : t.HasName y pattern d)
    (hr : t.Inside r child) : t.Behind stmt r := by
  induction h with
  | here hc hd =>
    rcases hd with ⟨hk, hsplit, ⟨front, between, rfl, -⟩, _, _, _, hlet, hlast⟩ | ⟨-, hfirst⟩
    · obtain rfl := hname.let_unique hlast.hasName ht hstmt hlet
      exact Tree.behind_of_split ht hk hsplit hr
    · obtain ⟨-, -, -, ⟨ty, hparam⟩, -⟩ := hfirst
      cases hname.kind?.symm.trans hparam
  | outer hc _ _ _ ih => exact ih hname (hr.trans (.of_mem hc))
  | item _ _ hoffers =>
    obtain ⟨-, -, -, hvalue, -⟩ := hoffers
    exact absurd hvalue (not_isValue_of_bindName htree hname.kind?)
  | imported _ _ _ _ hbrings =>
    obtain ⟨_, _, _, _, _, -, -, -, -, -, -, -, hvalue, -⟩ := hbrings
    exact absurd hvalue (not_isValue_of_bindName htree hname.kind?)

/-! ## References -/

/-- A simple name that stands for a value: it is not the target of a struct literal. -/
structure IsValueName (t : Tree) (r : NodeId) (x : String) : Prop where
  kind? : ∃ typeArgs, t.kind? r = some (.path (.simple x) typeArgs)
  unpacked : ∀ literal fields, t.kind? literal ≠ some (.pack r fields)

theorem IsValueName.resolve? (hr : IsValueName t r x) (htree : s.program.tree? r.file = some t) :
    s.resolve? r = s.simple? t r x .value := by
  obtain ⟨typeArgs, hk⟩ := hr.kind?
  have href : s.reference? r = some (.simple x, .value) := by
    rw [reference?, Program.kind?_eq htree, hk]
    refine congrArg (fun space => some (QName.simple x, space)) (if_neg fun hany => ?_)
    obtain ⟨parent, hparent, hpack⟩ := (Option.any_eq_true _ _).1 hany
    rw [Program.kind?_eq (Program.file_of_parent? hparent ▸ htree)] at hpack
    split at hpack
    next target fields hliteral =>
      obtain rfl : target = r := by simpa using hpack
      exact hr.unpacked parent fields hliteral
    next => cases hpack
  simp [Scope.resolve?, href, resolvePath?, htree, QName.simple]

/-- Let the tree of a reference be built bottom up and list each node once, and let its parameter
lists hold parameters only. Then a simple name that stands for a value resolves to what it denotes
by the rules of scoping, and to nothing if it denotes nothing. If it resolves to a name of a `let`,
it stands in a statement after the `let` in the same block. So it is not in the initialiser of the
`let`, not in a statement before it and not outside the block. -/
theorem resolve?_lexical (htree : s.program.tree? r.file = some t) (ht : t.Nested)
    (hparams : t.ParamsOnly) (hdistinct : s.program.DistinctModules s.aliases)
    (hr : IsValueName t r x) :
    (∀ d, s.resolve? r = some d ↔ s.Denotes t x r d) ∧
      ∀ stmt pattern ty init y d, t.kind? stmt = some (.letStmt pattern ty init) →
        t.HasName y pattern d → s.resolve? r = some d → t.Behind stmt r := by
  have hsearch : ∀ d, s.resolve? r = some d ↔ s.Denotes t x r d := by
    intro d
    rw [hr.resolve? htree]
    exact simple?_eq_some_iff_denotes ht hparams hdistinct
  refine ⟨hsearch, fun stmt pattern ty init y d hstmt hname hd => ?_⟩
  have htree : s.program.tree? t.file = some t := (Program.file_of_tree? htree).symm ▸ htree
  exact ((hsearch d).1 hd).after_let ht htree hstmt hname (.refl t r)

/-- A function with a parameter, two `let` statements of the same name and a third in an inner
block:

    use 0x1::fees::base as fee;
    fun pay(x) { let x = x; let (x, (y, x)); { let x = x; }; x; fee }
-/
def shadowing : Tree := Build.tree 0 do
  let parameter ← Build.node (.param "x" none)
  let first ← Build.letName "x" none (← Build.path (.simple "x") [])
  let left ← Build.node (.bindName "x")
  let right ← Build.slice [← Build.node (.bindName "y"), ← Build.node (.bindName "x")]
  let pair ← Build.slice [left, ← Build.node (.bindTuple right)]
  let second ← Build.node (.letStmt (← Build.node (.bindTuple pair)) none none)
  let inner ← Build.letName "x" none (← Build.path (.simple "x") [])
  let block ← Build.block [inner]
  let last ← Build.path (.simple "x") []
  let fee ← Build.path (.simple "fee") []
  let body ← Build.block [first, second, block, last, fee]
  let pay ← Build.function "pay" [] [parameter] none body
  let base ← Build.node (.use "0x1" "fees" (some "base") (some "fee"))
  Build.module "0x5" "m" [base, pay]

def shadowingScope : Scope := ⟨Program.empty.insert shadowing, .standard⟩

/-- The reference in the inner `let` denotes the last name of the tuple. -/
theorem resolve?_lexical_shadowing :
    shadowing.Nested ∧ shadowing.ParamsOnly ∧
      shadowingScope.program.DistinctModules shadowingScope.aliases ∧
      IsValueName shadowing ⟨0, 10⟩ "x" ∧ shadowingScope.Denotes shadowing "x" ⟨0, 10⟩ ⟨0, 6⟩ ∧
      shadowing.Behind ⟨0, 9⟩ ⟨0, 10⟩ := by
  have htree : shadowingScope.program.tree? 0 = some shadowing := rfl
  have ht : shadowing.Nested := by decide +kernel
  have hparams : shadowing.ParamsOnly := by decide +kernel
  have hdistinct : shadowingScope.program.DistinctModules shadowingScope.aliases := by
    decide +kernel
  have hr : IsValueName shadowing ⟨0, 10⟩ "x" := by
    refine ⟨⟨⟨4, 0⟩, by decide +kernel⟩, fun literal fields hliteral => ?_⟩
    have hparent : shadowing.parent? ⟨0, 10⟩ = some literal :=
      ht.parent?_eq_some_iff_mem.2 (by simp [Arena.children, hliteral, NodeKind.children])
    have hlet : shadowing.parent? ⟨0, 10⟩ = some ⟨0, 12⟩ ∧
        shadowing.kind? ⟨0, 12⟩ = some (.letStmt ⟨0, 11⟩ none (some ⟨0, 10⟩)) := by
      decide +kernel
    cases hlet.1.symm.trans hparent
    cases hlet.2.symm.trans hliteral
  have hd : shadowingScope.resolve? ⟨0, 10⟩ = some ⟨0, 6⟩ := by decide +kernel
  have hpatterns : shadowing.kind? ⟨0, 9⟩ = some (.letStmt ⟨0, 8⟩ none none) ∧
      shadowing.kind? ⟨0, 8⟩ = some (.bindTuple ⟨2, 2⟩) ∧
      shadowing.kind? ⟨0, 7⟩ = some (.bindTuple ⟨0, 2⟩) ∧
      shadowing.kind? ⟨0, 6⟩ = some (.bindName "x") := by decide +kernel
  obtain ⟨hstmt, houter, hinner, hname⟩ := hpatterns
  have hbinds : shadowing.HasName "x" ⟨0, 8⟩ ⟨0, 6⟩ :=
    .elem houter (e := ⟨0, 7⟩) (by decide +kernel) (.elem hinner (by decide +kernel) (.name hname))
  obtain ⟨hdenotes, hbehind⟩ := resolve?_lexical htree ht hparams hdistinct hr
  exact ⟨ht, hparams, hdistinct, hr, (hdenotes _).1 hd, hbehind _ _ _ _ _ _ hstmt hbinds hd⟩

end Scope

end MoveTyping
