import MoveTyping.Catalog.Json
import MoveTyping.Proofs.Catalog.Load

/-!
# Listed items and look-ups

A catalog lists its modules with their items, and finds items in tables by name. What a look-up
finds is the last item of that name in the module that is listed at the normal form of the address.

So an item that is listed is found unless a later one of its module has the same name, or the listed
address is not its own normal form, as happens with an alias for a padded address or for another
alias.

## Main definitions

* `Catalog.Listing` — a kind of items, with where they are listed and where they are found.
* `Catalog.Listed` — a catalog whose tables hold what its modules list.
-/

namespace MoveTyping

namespace Catalog

variable {c c' : Catalog} {m m' : Module} {d : ModuleDecl} {ds : List ModuleDecl}
  {address module name : String}

/-- The module that is listed at exactly this address. -/
def moduleAt? (c : Catalog) (address name : String) : Option Module :=
  c.modules.find? fun m => m.address = address ∧ m.name = name

/-- No two modules have one name at one address. -/
def Distinct (c : Catalog) : Prop :=
  ∀ m ∈ c.modules, ∀ m' ∈ c.modules, m.address = m'.address → m.name = m'.name → m = m'

theorem Distinct.moduleAt?_eq_some_iff (h : c.Distinct) :
    c.moduleAt? address name = some m ↔ m ∈ c.modules ∧ m.address = address ∧ m.name = name := by
  have hsound : ∀ {m}, c.moduleAt? address name = some m →
      m ∈ c.modules ∧ m.address = address ∧ m.name = name := fun hm =>
    ⟨List.mem_of_find?_eq_some hm, by simpa using List.find?_some hm⟩
  refine ⟨hsound, ?_⟩
  rintro ⟨hm, rfl, rfl⟩
  cases hfound : c.moduleAt? m.address m.name with
  | none => exact absurd (List.find?_eq_none.1 hfound m hm) (by simp)
  | some m' =>
    obtain ⟨hm', haddress, hname⟩ := hsound hfound
    rw [h m' hm' m hm haddress hname]

/-! ## Kinds of items -/

/-- A kind of items: how a module lists them, and the table in which a catalog finds them. -/
structure Listing (α β : Type) where
  items : Module → List α
  name : α → QName
  value : α → β
  table : Catalog → Table QName β

namespace Listing

def structs : Listing Record Record := ⟨Module.structs, Record.name, id, Catalog.structs⟩

def functions : Listing Function Function :=
  ⟨Module.functions, Function.name, id, Catalog.functions⟩

def constants : Listing Constant Ty :=
  ⟨Module.constants, Constant.name, Constant.ty, Catalog.constants⟩

variable {α β : Type} {L : Listing α β}

/-- The last item of a name in a module. -/
def last? (L : Listing α β) (m : Module) (name : String) : Option α :=
  ((L.items m).filter fun a => (L.name a).name = name).getLast?

/-- The items of a module are named by it. -/
def Owned (L : Listing α β) (m : Module) : Prop :=
  ∀ a ∈ L.items m, ∃ name, L.name a = .full m.address m.name name

/-- The table holds the last item of each name of the listed modules. -/
structure Holds (L : Listing α β) (c : Catalog) : Prop where
  owned : ∀ m ∈ c.modules, L.Owned m
  get? : ∀ address module name, (L.table c).get? (.full address module name) =
    ((c.moduleAt? address module).bind (L.last? · name)).map L.value

/-- A module's items are written into the table. -/
structure Adds (L : Listing α β) (m : Module) (c c' : Catalog) : Prop where
  owned : L.Owned m
  table : L.table c' =
    (L.items m).foldl (fun t a => t.insert (L.name a) (L.value a)) (L.table c)

theorem Owned.filter_eq (h : L.Owned m) (name : String) :
    (L.items m).filter (fun a => L.name a = .full m.address m.name name) =
      (L.items m).filter fun a => (L.name a).name = name := by
  refine List.filter_congr fun a ha => ?_
  obtain ⟨name', ha⟩ := h a ha
  simp [ha, QName.full]

theorem Owned.filter_eq_nil (h : L.Owned m) (hne : ¬(m.address = address ∧ m.name = module)) :
    (L.items m).filter (fun a => L.name a = .full address module name) = [] := by
  refine List.filter_eq_nil_iff.2 fun a ha hname => hne ?_
  obtain ⟨name', ha⟩ := h a ha
  simp only [ha, QName.full, decide_eq_true_eq, QName.mk.injEq, Option.some.injEq] at hname
  exact ⟨hname.1, hname.2.1⟩

theorem Owned.name_of_last? (h : L.Owned m) {a : α} (ha : L.last? m name = some a) :
    L.name a = .full m.address m.name name := by
  obtain ⟨hmem, hname⟩ := List.mem_filter.1 (List.mem_of_getLast? ha)
  obtain ⟨name', hfull⟩ := h a hmem
  rw [hfull] at hname ⊢
  rw [← of_decide_eq_true hname]
  rfl

/-- A new module leaves the rows of the others as they are. -/
theorem Holds.add (h : L.Holds c) (hadds : L.Adds m c c')
    (hmodules : c'.modules = c.modules ++ [m])
    (hnew : c.moduleAt? m.address m.name = none) : L.Holds c' where
  owned m' hm' := by
    rw [hmodules] at hm'
    rcases List.mem_append.1 hm' with hm' | hm'
    · exact h.owned m' hm'
    · rw [List.mem_singleton.1 hm']
      exact hadds.owned
  get? address module name := by
    have hfind : c'.moduleAt? address module = (c.moduleAt? address module).or
        (if m.address = address ∧ m.name = module then some m else none) := by
      rw [moduleAt?, hmodules, List.find?_append]
      by_cases hm : m.address = address ∧ m.name = module <;> simp [moduleAt?, hm]
    rw [hadds.table, Table.get?_foldl_insert, h.get?, hfind]
    by_cases hm : m.address = address ∧ m.name = module
    · obtain ⟨rfl, rfl⟩ := hm
      rw [hnew, hadds.owned.filter_eq]
      simp [last?]
    · rw [hadds.owned.filter_eq_nil hm, if_neg hm]
      simp

theorem Holds.of_modules (h : L.Holds c) (htable : L.table c' = L.table c)
    (hmem : ∀ m, m ∈ c'.modules → m ∈ c.modules)
    (hfind : ∀ address name, c'.moduleAt? address name = c.moduleAt? address name) :
    L.Holds c' where
  owned m hm := h.owned m (hmem m hm)
  get? address module name := by rw [htable, hfind, h.get?]

end Listing

/-! ## Loading -/

theorem loadFunction_name {aliases : Aliases} {decl : FunctionDecl} {f : Function}
    (h : loadFunction aliases d decl = .ok f) : f.name = d.itemName aliases decl.name := by
  simp only [loadFunction, bind_eq_ok_iff] at h
  obtain ⟨typeParams, -, params, -, ret, -, h⟩ := h
  rw [← Except.ok.inj h]
  rfl

theorem loadConstant_name {aliases : Aliases} {decl : TypedName} {k : Constant}
    (h : loadConstant aliases d decl = .ok k) : k.name = d.itemName aliases decl.name := by
  simp only [loadConstant, bind_eq_ok_iff] at h
  obtain ⟨ty, -, h⟩ := h
  rw [← Except.ok.inj h]
  rfl

/-- The modules are distinct, and the tables hold what they list. -/
structure Listed (c : Catalog) : Prop where
  distinct : c.Distinct
  structs : Listing.structs.Holds c
  functions : Listing.functions.Holds c
  constants : Listing.constants.Holds c

theorem adds_addModule (h : addModule c d = .ok c') :
    ∃ m, c.moduleAt? m.address m.name = none ∧ c'.modules = c.modules ++ [m] ∧
      Listing.structs.Adds m c c' ∧ Listing.functions.Adds m c c' ∧
      Listing.constants.Adds m c c' := by
  obtain ⟨hnew, structs, functions, constants, hstructs, hfunctions, hconstants, rfl⟩ :=
    addModule_cases h
  refine ⟨_, ?_, rfl, ⟨?_, ?_⟩, ⟨?_, rfl⟩, ⟨?_, rfl⟩⟩
  · exact List.find?_eq_none.2 fun m hm => by simpa using hnew m hm
  · intro _ hitem
    obtain ⟨r, hr, rfl⟩ := List.mem_map.1 hitem
    obtain ⟨decl, -, hdecl⟩ := exists_of_mem_forall₂ hstructs hr
    exact ⟨_, (loadStruct_cases hdecl).1⟩
  · change structs.foldl (fun t s => t.insert s.1.name s.1) c.structs =
      (structs.map Prod.fst).foldl (fun t r => t.insert r.name r) c.structs
    rw [List.foldl_map]
  · intro f hf
    obtain ⟨decl, -, hdecl⟩ := exists_of_mem_forall₂ hfunctions hf
    exact ⟨_, loadFunction_name hdecl⟩
  · intro k hk
    obtain ⟨decl, -, hdecl⟩ := exists_of_mem_forall₂ hconstants hk
    exact ⟨_, loadConstant_name hdecl⟩

theorem Distinct.add (h : c.Distinct) (hmodules : c'.modules = c.modules ++ [m])
    (hnew : c.moduleAt? m.address m.name = none) : c'.Distinct := by
  have hother : ∀ m' ∈ c.modules, m'.address = m.address → m'.name ≠ m.name := by
    simpa [moduleAt?] using hnew
  intro m₁ hm₁ m₂ hm₂ haddress hname
  simp only [hmodules, List.mem_append, List.mem_singleton] at hm₁ hm₂
  rcases hm₁ with hm₁ | rfl <;> rcases hm₂ with hm₂ | rfl
  · exact h m₁ hm₁ m₂ hm₂ haddress hname
  · exact absurd hname (hother m₁ hm₁ haddress)
  · exact absurd hname.symm (hother m₂ hm₂ haddress.symm)
  · rfl

namespace Listed

theorem addModule (h : c.Listed) (hd : addModule c d = .ok c') : c'.Listed := by
  obtain ⟨m, hnew, hmodules, hstructs, hfunctions, hconstants⟩ := adds_addModule hd
  exact ⟨h.distinct.add hmodules hnew, h.structs.add hstructs hmodules hnew,
    h.functions.add hfunctions hmodules hnew, h.constants.add hconstants hmodules hnew⟩

theorem foldlM (h : c.Listed) (hds : ds.foldlM Catalog.addModule c = .ok c') : c'.Listed := by
  induction ds generalizing c with
  | nil =>
    rw [← Except.ok.inj hds]
    exact h
  | cons d ds ih =>
    obtain ⟨c₁, hd, hds⟩ := bind_eq_ok_iff.1 hds
    exact ih (h.addModule hd) hds

/-- The order of the modules has no part in it. -/
theorem sort (h : c.Listed) (le : Module → Module → Bool) :
    Listed { c with modules := c.modules.mergeSort le } := by
  have hmem : ∀ m ∈ c.modules.mergeSort le, m ∈ c.modules := fun _ => List.mem_mergeSort.1
  have hdistinct : Distinct { c with modules := c.modules.mergeSort le } := fun m hm m' hm' =>
    h.distinct m (hmem m hm) m' (hmem m' hm')
  have hfind : ∀ address name,
      moduleAt? { c with modules := c.modules.mergeSort le } address name =
        c.moduleAt? address name := by
    intro address name
    refine Option.ext fun m => ?_
    rw [hdistinct.moduleAt?_eq_some_iff, h.distinct.moduleAt?_eq_some_iff,
      List.mem_mergeSort]
  exact ⟨hdistinct, h.structs.of_modules rfl hmem hfind, h.functions.of_modules rfl hmem hfind,
    h.constants.of_modules rfl hmem hfind⟩

theorem load {decl : Declaration} (h : load decl = .ok c) : c.Listed := by
  obtain ⟨c₀, hmodules, h⟩ := bind_eq_ok_iff.1 h
  have hstart : ∀ aliases, Listed { empty with aliases } := fun aliases =>
    ⟨by simp [Distinct, empty], ⟨by simp [empty], fun _ _ _ => rfl⟩,
      ⟨by simp [empty], fun _ _ _ => rfl⟩, ⟨by simp [empty], fun _ _ _ => rfl⟩⟩
  rw [← Except.ok.inj h]
  exact ((hstart _).foldlM hmodules).sort _

end Listed

/-- Every struct that a module declares is in the table. -/
theorem isSome_structs_load {decl : Declaration} {s : StructDecl} (h : load decl = .ok c)
    (hd : d ∈ decl.modules) (hs : s ∈ d.structs) :
    (c.structs.get? (d.itemName c.aliases s.name)).isSome := by
  have hlisted := Listed.load h
  obtain ⟨m, hm, haddress, hname, hnames⟩ := listed_load h hd
  have hfound : c.moduleAt? (c.aliases.normalize d.address) d.name = some m :=
    hlisted.distinct.moduleAt?_eq_some_iff.2 ⟨hm, haddress, hname⟩
  obtain ⟨r, hr, hrname⟩ : ∃ r ∈ m.structs, r.name = d.itemName c.aliases s.name := by
    rw [← List.mem_map, hnames]
    exact List.mem_map_of_mem hs
  have hlast : (Listing.structs.last? m s.name).isSome := by
    refine List.getLast?_isSome.2 (List.ne_nil_of_mem (List.mem_filter.2 ⟨hr, ?_⟩))
    exact decide_eq_true (congrArg QName.name hrname)
  have hget := hlisted.structs.get? (c.aliases.normalize d.address) d.name s.name
  rw [hfound, Option.bind_some] at hget
  exact (congrArg Option.isSome hget).trans (by simpa using hlast)

theorem exists_load_of_parse {text : String} (h : parse text = .ok c) :
    ∃ decl, load decl = .ok c := by
  unfold parse at h
  split at h
  · exact ⟨_, h⟩
  · cases h

/-! ## Look-ups -/

section LookUps

variable {α β : Type} {L : Listing α β}

/-- A look-up finds the last item of the name in the module that is found. -/
theorem Listing.Holds.get?_normalize (h : L.Holds c) (address module name : String) :
    (L.table c).get? (c.normalize (.full address module name)) =
      ((c.module? address module).bind (L.last? · name)).map L.value :=
  h.get? (c.aliases.normalize address) module name

/-- A listed item is found if the address of its module is its own normal form and no later item
has the name. -/
theorem Listed.get?_normalize_eq_some_iff (h : c.Listed) (hL : L.Holds c)
    (hvalue : Function.Injective L.value) (hm : m ∈ c.modules) {a : α} (ha : a ∈ L.items m) :
    (L.table c).get? (c.normalize (L.name a)) = some (L.value a) ↔
      c.aliases.normalize m.address = m.address ∧
        ((L.items m).filter fun b => L.name b = L.name a).getLast? = some a := by
  obtain ⟨name, hname⟩ := hL.owned m hm a ha
  have hlast : ((L.items m).filter fun b => L.name b = L.name a).getLast? = L.last? m name := by
    rw [hname, (hL.owned m hm).filter_eq, Listing.last?]
  rw [hlast, hname, hL.get?_normalize, Option.map_eq_some_iff]
  constructor
  · rintro ⟨a', hfound, hsame⟩
    obtain rfl := hvalue hsame
    obtain ⟨m', hm', hlast'⟩ := Option.bind_eq_some_iff.1 hfound
    obtain ⟨hmem', haddress, hmodule⟩ := h.distinct.moduleAt?_eq_some_iff.1 hm'
    -- the item is named by the module it is found in, so that is the module that lists it
    have hname' := (hL.owned m' hmem').name_of_last? hlast'
    rw [hname] at hname'
    have hsame : m.address = m'.address := Option.some.inj (congrArg QName.address hname')
    obtain rfl := h.distinct m hm m' hmem' hsame hmodule.symm
    exact ⟨haddress.symm, hlast'⟩
  · rintro ⟨hnormal, hlast'⟩
    have hfound : c.module? m.address m.name = some m :=
      h.distinct.moduleAt?_eq_some_iff.2 ⟨hm, hnormal.symm, rfl⟩
    exact ⟨a, by rw [hfound]; exact hlast', rfl⟩

end LookUps

theorem Listed.module?_eq_some_iff (h : c.Listed) (hm : m ∈ c.modules) :
    c.module? m.address m.name = some m ↔ c.aliases.normalize m.address = m.address := by
  change c.moduleAt? (c.aliases.normalize m.address) m.name = some m ↔ _
  rw [h.distinct.moduleAt?_eq_some_iff]
  exact ⟨fun hfound => hfound.2.1.symm, fun hnormal => ⟨hm, hnormal.symm, rfl⟩⟩

/-- What is found of a module that a catalog lists. The module itself is found if its address is its
own normal form, and so are its structs and functions, each unless a later one has its name. A
constant is given the type of the last constant of its name in the module that is found. -/
theorem look_up_listed {decl : Declaration} (h : load decl = .ok c) (hm : m ∈ c.modules) :
    (c.module? m.address m.name = some m ↔ c.aliases.normalize m.address = m.address) ∧
    (∀ r ∈ m.structs, c.record? r.name = some r ↔
      c.aliases.normalize m.address = m.address ∧
        (m.structs.filter (·.name = r.name)).getLast? = some r) ∧
    (∀ f ∈ m.functions, c.function? f.name = some f ↔
      c.aliases.normalize m.address = m.address ∧
        (m.functions.filter (·.name = f.name)).getLast? = some f) ∧
    ∀ k ∈ m.constants, c.constant? k.name =
      (c.module? m.address m.name).bind fun m' =>
        (m'.constants.filter (·.name.name = k.name.name)).getLast?.map Constant.ty := by
  have hlisted := Listed.load h
  refine ⟨hlisted.module?_eq_some_iff hm, fun r hr => ?_, fun f hf => ?_, fun k hk => ?_⟩
  · exact hlisted.get?_normalize_eq_some_iff hlisted.structs Function.injective_id hm hr
  · exact hlisted.get?_normalize_eq_some_iff hlisted.functions Function.injective_id hm hf
  · obtain ⟨name, hname⟩ := hlisted.constants.owned m hm k hk
    change k.name = _ at hname
    rw [constant?, hname]
    refine (hlisted.constants.get?_normalize m.address m.name name).trans ?_
    rw [Option.map_bind]
    rfl

/-! ## Two libraries -/

/-- The catalog of a text that declares one. -/
def ofText (text : String) : Catalog := (parse text).toOption.getD .empty

theorem parse_eq_ofText {text : String} (h : (parse text).toOption.isSome = true) :
    parse text = .ok (ofText text) := by
  unfold ofText
  cases hparse : parse text with
  | error e =>
    rw [hparse] at h
    cases h
  | ok c => rfl

/-- A library with a struct that is declared twice. -/
def payText : String :=
  "[\x7b\x7d,[[\"0x6\",\"pay\",[[\"Bill\"],[\"Bill\",[\"copy\"]]],[[\"total\"]]," ++
    "[[\"LIMIT\",\"u8\"]]]]]"

def bill (abilities : AbilitySet) : Record :=
  ⟨.full "0x6" "pay" "Bill", abilities, [], [], false, []⟩

def payModule : Module where
  address := "0x6"
  name := "pay"
  structs := [bill ∅, bill ⟨true, false, false, false⟩]
  functions := [⟨.full "0x6" "pay" "total", ⟨[], [], .prim .unit⟩⟩]
  constants := [⟨.full "0x6" "pay" "LIMIT", .prim .u8⟩]

theorem modules_payText : (ofText payText).modules = [payModule] := by decide +kernel

/-- Of the two structs the second is found. -/
theorem look_up_listed_pay :
    (ofText payText).module? "0x6" "pay" = some payModule ∧
    (ofText payText).record? (bill ∅).name = some (bill ⟨true, false, false, false⟩) ∧
    (ofText payText).function? (.full "0x6" "pay" "total") = payModule.functions.head? ∧
    (ofText payText).constant? (.full "0x6" "pay" "LIMIT") = some (.prim .u8) := by
  have hparse : parse payText = .ok (ofText payText) := parse_eq_ofText (by decide +kernel)
  obtain ⟨decl, hload⟩ := exists_load_of_parse hparse
  have hm : payModule ∈ (ofText payText).modules := by
    rw [modules_payText]
    exact List.mem_singleton_self _
  have hnormal : (ofText payText).aliases.normalize payModule.address = payModule.address := by
    decide +kernel
  obtain ⟨hmodule, hstructs, hfunctions, hconstants⟩ := look_up_listed hload hm
  have hmodule := hmodule.2 hnormal
  refine ⟨hmodule, ?_, ?_, ?_⟩
  · exact (hstructs (bill ⟨true, false, false, false⟩) (by decide)).2 ⟨hnormal, by decide⟩
  · exact (hfunctions ⟨.full "0x6" "pay" "total", ⟨[], [], .prim .unit⟩⟩ (by decide)).2
      ⟨hnormal, by decide⟩
  · refine (hconstants ⟨.full "0x6" "pay" "LIMIT", .prim .u8⟩ (by decide)).trans ?_
    rw [hmodule]
    rfl

/-- A library with an alias for a padded address. -/
def bankText : String := "[\x7b\"bank\":\"0x05\"\x7d,[[\"bank\",\"b\",[[\"Note\"]]]]]"

def bankModule : Module :=
  ⟨"0x05", "b", [⟨.full "0x05" "b" "Note", ∅, [], [], false, []⟩], [], []⟩

/-- A module that is listed at a padded address is not found there, nor is its struct. Where a
struct is declared twice, the first one is not found. -/
theorem listed_not_found :
    ((ofText bankText).modules = [bankModule] ∧
      (ofText bankText).module? bankModule.address bankModule.name = none ∧
      ∀ r ∈ bankModule.structs, (ofText bankText).record? r.name = none) ∧
    (ofText payText).modules = [payModule] ∧ bill ∅ ∈ payModule.structs ∧
      (ofText payText).record? (bill ∅).name ≠ some (bill ∅) := by
  refine ⟨⟨?_, ?_, ?_⟩, modules_payText, ?_, ?_⟩ <;> decide +kernel

end Catalog

end MoveTyping
