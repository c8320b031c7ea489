import MoveTyping.Catalog.Load
import MoveTyping.Proofs.Lists
import MoveTyping.Proofs.Signature.Accept

/-!
# Loaded catalogs

What the tables of a catalog hold once it is loaded. A module fills only the rows under its own
name, and no two modules have the same name at the same address, so the rows under the name of a
module are those that it declares itself, of which the last one counts.

## Main definitions

* `Catalog.ModuleDecl.standIn?` — the primitive that a struct of a module stands for.
-/

namespace MoveTyping

theorem mapM_eq_ok_iff {ε α β : Type} {f : α → Except ε β} {l : List α} {r : List β} :
    l.mapM f = .ok r ↔ List.Forall₂ (fun a b => f a = .ok b) l r := by
  induction l generalizing r with
  | nil =>
    rw [List.mapM_nil, List.forall₂_nil_left_iff]
    exact ⟨fun h => (Except.ok.inj h).symm, fun h => h ▸ rfl⟩
  | cons a l ih =>
    simp only [List.mapM_cons, bind_eq_ok_iff, List.forall₂_cons_left_iff, ih]
    constructor
    · rintro ⟨b, hb, bs, hbs, h⟩
      exact ⟨b, bs, hb, hbs, (Except.ok.inj h).symm⟩
    · rintro ⟨b, bs, hb, hbs, rfl⟩
      exact ⟨b, hb, bs, hbs, rfl⟩

namespace Table

variable {κ α β : Type} [DecidableEq κ]

/-- Of the rows that are written one after the other, the last one of a key counts. -/
theorem get?_foldl_elim (key : β → κ) (value? : β → Option α) (l : List β) (t : Table κ α)
    (k : κ) :
    (l.foldl (fun t b => (value? b).elim t (t.insert (key b))) t).get? k =
      ((l.filter (key · = k)).filterMap value?).getLast?.or (t.get? k) := by
  induction l generalizing t with
  | nil => rfl
  | cons b l ih =>
    rw [List.foldl_cons, ih, List.filter_cons]
    by_cases hb : key b = k
    · rw [if_pos (decide_eq_true hb), List.filterMap_cons]
      cases value? b with
      | none => rfl
      | some v =>
        rw [Option.elim_some, Table.get?_insert, if_pos hb.symm, List.getLast?_cons]
        cases ((l.filter (key · = k)).filterMap value?).getLast? <;> rfl
    · rw [if_neg (by simpa using hb)]
      cases value? b with
      | none => rfl
      | some v => rw [Option.elim_some, Table.get?_insert, if_neg (Ne.symm hb)]

theorem get?_foldl_insert (key : β → κ) (value : β → α) (l : List β) (t : Table κ α) (k : κ) :
    (l.foldl (fun t b => t.insert (key b) (value b)) t).get? k =
      ((l.filter (key · = k)).getLast?.map value).or (t.get? k) := by
  have h := get?_foldl_elim key (some ∘ value) l t k
  rwa [List.filterMap_eq_map, List.getLast?_map] at h

/-- What is in a table after some rows were written was written or was there before. -/
theorem of_get?_foldl_insert {key : β → κ} {value : β → α} {l : List β} {t : Table κ α} {k : κ}
    {v : α} (h : (l.foldl (fun t b => t.insert (key b) (value b)) t).get? k = some v) :
    (∃ b ∈ l, value b = v) ∨ t.get? k = some v := by
  rw [get?_foldl_insert, Option.or_eq_some_iff] at h
  rcases h with h | ⟨-, h⟩
  · obtain ⟨b, hb, rfl⟩ := Option.map_eq_some_iff.1 h
    exact .inl ⟨b, (List.mem_filter.1 (List.mem_of_getLast? hb)).1, rfl⟩
  · exact .inr h

end Table

namespace Catalog

variable {c c' : Catalog} {d : ModuleDecl} {ds : List ModuleDecl} {address module name : String}

/-! ## One module -/

/-- The name of an item of a module. -/
def ModuleDecl.itemName (aliases : Aliases) (d : ModuleDecl) (name : String) : QName :=
  .full (aliases.normalize d.address) d.name name

/-- The primitive that the structs of this name stand for: the last one that is declared. -/
def ModuleDecl.standIn? (d : ModuleDecl) (name : String) : Option Prim :=
  ((d.structs.filter (·.name = name)).filterMap (·.primitive.bind standInFor?)).getLast?

theorem loadStruct_cases {aliases : Aliases} {s : StructDecl} {r : Record × Option Prim}
    (h : loadStruct aliases d s = .ok r) :
    r.1.name = d.itemName aliases s.name ∧ r.2 = s.primitive.bind standInFor? := by
  simp only [loadStruct, bind_eq_ok_iff] at h
  obtain ⟨typeParams, -, fields, -, abilities, -, h⟩ := h
  split at h
  next hnone =>
    obtain rfl := Except.ok.inj h
    exact ⟨rfl, by rw [hnone]; rfl⟩
  next text htext =>
    split at h
    next kind hkind =>
      obtain rfl := Except.ok.inj h
      exact ⟨rfl, by rw [htext, Option.bind_some, hkind]⟩
    next => cases h

/-- What it takes to add a module, and what it adds. -/
theorem addModule_cases (h : addModule c d = .ok c') :
    (∀ m ∈ c.modules, ¬(m.address = c.aliases.normalize d.address ∧ m.name = d.name)) ∧
    ∃ structs functions constants,
      List.Forall₂ (fun s r => loadStruct c.aliases d s = .ok r) d.structs structs ∧
      List.Forall₂ (fun f r => loadFunction c.aliases d f = .ok r) d.functions functions ∧
      List.Forall₂ (fun k r => loadConstant c.aliases d k = .ok r) d.constants constants ∧
      c' = { c with
        modules := c.modules ++ [⟨c.aliases.normalize d.address, d.name, structs.map Prod.fst,
          functions, constants⟩]
        structs := structs.foldl (fun t s => t.insert s.1.name s.1) c.structs
        primitives := structs.foldl (fun t s => s.2.elim t (t.insert s.1.name)) c.primitives
        functions := functions.foldl (fun t f => t.insert f.name f) c.functions
        constants := constants.foldl (fun t k => t.insert k.name k.ty) c.constants } := by
  unfold addModule at h
  dsimp only at h
  split at h
  · cases h
  · next hnew =>
    simp only [bind_eq_ok_iff, mapM_eq_ok_iff] at h
    obtain ⟨structs, hstructs, functions, hfunctions, constants, hconstants, h⟩ := h
    refine ⟨?_, structs, functions, constants, hstructs, hfunctions, hconstants,
      (Except.ok.inj h).symm⟩
    simpa using hnew

/-- The names and the primitives of structs are loaded as they are declared. -/
theorem map_loadStruct {aliases : Aliases} {decls : List StructDecl}
    {structs : List (Record × Option Prim)}
    (h : List.Forall₂ (fun s r => loadStruct aliases d s = .ok r) decls structs) :
    structs.map (fun r => (r.1.name, r.2)) =
      decls.map fun s => (d.itemName aliases s.name, s.primitive.bind standInFor?) := by
  induction h with
  | nil => rfl
  | cons hr _ ih =>
    obtain ⟨hname, hprimitive⟩ := loadStruct_cases hr
    rw [List.map_cons, List.map_cons, ih, hname, hprimitive]

/-- The last primitive that the module declares for a name is in the table, before any that was
there. -/
theorem primitives_addModule (h : addModule c d = .ok c') (q : QName) :
    c'.primitives.get? q =
      ((d.structs.filter (d.itemName c.aliases ·.name = q)).filterMap
        (·.primitive.bind standInFor?)).getLast?.or (c.primitives.get? q) := by
  obtain ⟨-, structs, functions, constants, hstructs, -, -, rfl⟩ := addModule_cases h
  have hmap := congrArg (fun rows => (rows.filter (·.1 = q)).filterMap Prod.snd)
    (map_loadStruct hstructs)
  simp only [List.filter_map, List.filterMap_map, Function.comp_def] at hmap
  rw [Table.get?_foldl_elim, hmap]

theorem aliases_addModule (h : addModule c d = .ok c') : c'.aliases = c.aliases := by
  obtain ⟨-, structs, functions, constants, -, -, -, rfl⟩ := addModule_cases h
  rfl

/-- The module is listed with its structs, beside those that were listed before. -/
theorem listed_addModule (h : addModule c d = .ok c') :
    (∃ m ∈ c'.modules, m.address = c.aliases.normalize d.address ∧ m.name = d.name ∧
      m.structs.map Record.name = d.structs.map (d.itemName c.aliases ·.name)) ∧
      ∀ m ∈ c.modules, m ∈ c'.modules := by
  obtain ⟨-, structs, functions, constants, hstructs, -, -, rfl⟩ := addModule_cases h
  have hnames := congrArg (List.map Prod.fst) (map_loadStruct hstructs)
  simp only [List.map_map, Function.comp_def] at hnames
  refine ⟨⟨_, List.mem_concat_self, rfl, rfl, ?_⟩, fun m hm => List.mem_append_left _ hm⟩
  simpa [List.map_map, Function.comp_def] using hnames

theorem primitives_addModule_self (h : addModule c d = .ok c') :
    c'.primitives.get? (d.itemName c.aliases name) =
      (d.standIn? name).or (c.primitives.get? (d.itemName c.aliases name)) := by
  rw [primitives_addModule h, ModuleDecl.standIn?]
  simp [ModuleDecl.itemName, QName.full]

theorem primitives_addModule_of_ne (h : addModule c d = .ok c')
    (hne : ¬(address = c.aliases.normalize d.address ∧ module = d.name)) :
    c'.primitives.get? (.full address module name) =
      c.primitives.get? (.full address module name) := by
  have hnone : d.structs.filter (d.itemName c.aliases ·.name = .full address module name) = [] := by
    refine List.filter_eq_nil_iff.2 fun s _ hs => hne ?_
    simp only [ModuleDecl.itemName, QName.full, decide_eq_true_eq, QName.mk.injEq,
      Option.some.injEq] at hs
    exact ⟨hs.1.symm, hs.2.1.symm⟩
  rw [primitives_addModule h, hnone]
  rfl

/-! ## Several modules -/

theorem aliases_foldlM (h : ds.foldlM addModule c = .ok c') : c'.aliases = c.aliases := by
  induction ds generalizing c with
  | nil => rw [← Except.ok.inj h]
  | cons d ds ih =>
    obtain ⟨c₁, hd, h⟩ := bind_eq_ok_iff.1 h
    rw [ih h, aliases_addModule hd]

/-- A module that is still to be added has another name than those that are listed. -/
theorem not_listed_of_foldlM (h : ds.foldlM addModule c = .ok c') (hd : d ∈ ds) :
    ∀ m ∈ c.modules, ¬(m.address = c.aliases.normalize d.address ∧ m.name = d.name) := by
  induction ds generalizing c with
  | nil => cases hd
  | cons d₀ ds ih =>
    obtain ⟨c₁, hd₀, h⟩ := bind_eq_ok_iff.1 h
    rcases List.mem_cons.1 hd with rfl | hd
    · exact (addModule_cases hd₀).1
    · intro m hm
      rw [← aliases_addModule hd₀]
      exact ih h hd m ((listed_addModule hd₀).2 m hm)

/-- The rows of a module that is listed stay as they are. -/
theorem primitives_foldlM_of_listed (h : ds.foldlM addModule c = .ok c')
    (hm : ∃ m ∈ c.modules, m.address = address ∧ m.name = module) :
    c'.primitives.get? (.full address module name) =
      c.primitives.get? (.full address module name) := by
  induction ds generalizing c with
  | nil => rw [← Except.ok.inj h]
  | cons d ds ih =>
    obtain ⟨m, hmem, rfl, rfl⟩ := hm
    have hne := not_listed_of_foldlM h List.mem_cons_self m hmem
    obtain ⟨c₁, hd, h⟩ := bind_eq_ok_iff.1 h
    rw [ih h ⟨m, (listed_addModule hd).2 m hmem, rfl, rfl⟩, primitives_addModule_of_ne hd hne]

theorem primitives_foldlM (h : ds.foldlM addModule c = .ok c') (hd : d ∈ ds)
    (hnone : c.primitives.get? (d.itemName c.aliases name) = none) :
    c'.primitives.get? (d.itemName c.aliases name) = d.standIn? name := by
  induction ds generalizing c with
  | nil => cases hd
  | cons d₀ ds ih =>
    obtain ⟨c₁, hd₀, hds⟩ := bind_eq_ok_iff.1 h
    obtain ⟨⟨m, hm, haddress, hname, -⟩, -⟩ := listed_addModule hd₀
    rcases List.mem_cons.1 hd with rfl | hd
    · rw [ModuleDecl.itemName, primitives_foldlM_of_listed hds ⟨m, hm, haddress, hname⟩]
      exact (primitives_addModule_self hd₀).trans (by rw [hnone, Option.or_none])
    · have hne := not_listed_of_foldlM hds hd m hm
      rw [haddress, hname, aliases_addModule hd₀] at hne
      rw [← aliases_addModule hd₀]
      refine ih hds hd ?_
      rw [aliases_addModule hd₀, ← hnone]
      exact primitives_addModule_of_ne hd₀ fun hsame => hne ⟨hsame.1.symm, hsame.2.symm⟩

theorem mem_modules_foldlM (h : ds.foldlM addModule c = .ok c') {m : Module}
    (hm : m ∈ c.modules) : m ∈ c'.modules := by
  induction ds generalizing c with
  | nil =>
    rw [← Except.ok.inj h]
    exact hm
  | cons d ds ih =>
    obtain ⟨c₁, hd, h⟩ := bind_eq_ok_iff.1 h
    exact ih h ((listed_addModule hd).2 m hm)

theorem listed_foldlM (h : ds.foldlM addModule c = .ok c') (hd : d ∈ ds) :
    ∃ m ∈ c'.modules, m.address = c.aliases.normalize d.address ∧ m.name = d.name ∧
      m.structs.map Record.name = d.structs.map (d.itemName c.aliases ·.name) := by
  induction ds generalizing c with
  | nil => cases hd
  | cons d₀ ds ih =>
    obtain ⟨c₁, hd₀, hds⟩ := bind_eq_ok_iff.1 h
    rcases List.mem_cons.1 hd with rfl | hd
    · obtain ⟨⟨m, hm, hlisted⟩, -⟩ := listed_addModule hd₀
      exact ⟨m, mem_modules_foldlM hds hm, hlisted⟩
    · rw [← aliases_addModule hd₀]
      exact ih hds hd

/-! ## Whole catalogs -/

theorem load_cases {decl : Declaration} (h : load decl = .ok c) :
    ∃ start c₀ : Catalog, start.aliases = c.aliases ∧ (∀ q, start.primitives.get? q = none) ∧
      decl.modules.foldlM addModule start = .ok c₀ ∧ (∀ m ∈ c₀.modules, m ∈ c.modules) ∧
      c.primitives = c₀.primitives := by
  obtain ⟨c₀, hmodules, h⟩ := bind_eq_ok_iff.1 h
  obtain rfl := Except.ok.inj h
  exact ⟨_, c₀, (aliases_foldlM hmodules).symm, fun _ => rfl, hmodules,
    fun _ => List.mem_mergeSort.2, rfl⟩

/-- The primitive that a library struct stands for is the one that its module declares. -/
theorem primitives_load {decl : Declaration} (h : load decl = .ok c) (hd : d ∈ decl.modules)
    (name : String) : c.primitives.get? (d.itemName c.aliases name) = d.standIn? name := by
  obtain ⟨start, c₀, haliases, hnone, hmodules, -, hc⟩ := load_cases h
  rw [hc, ← haliases]
  exact primitives_foldlM hmodules hd (hnone _)

/-- Every module that is declared is listed with its structs. -/
theorem listed_load {decl : Declaration} (h : load decl = .ok c) (hd : d ∈ decl.modules) :
    ∃ m ∈ c.modules, m.address = c.aliases.normalize d.address ∧ m.name = d.name ∧
      m.structs.map Record.name = d.structs.map (d.itemName c.aliases ·.name) := by
  obtain ⟨start, c₀, haliases, -, hmodules, hmem, -⟩ := load_cases h
  obtain ⟨m, hm, hlisted⟩ := listed_foldlM hmodules hd
  exact ⟨m, hmem m hm, haliases ▸ hlisted⟩

end Catalog

end MoveTyping
