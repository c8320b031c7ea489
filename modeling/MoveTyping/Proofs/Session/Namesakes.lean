import MoveTyping.Tree.Build
import MoveTyping.Proofs.Session.Coherence

/-!
# Namesakes

There are two ways to the record of a struct. A session indexes the records of its files when they
are edited, and an engine that does not find a name in the index looks for the module and then for
the struct. The first way ends at the last struct of a name and the second at the first struct of
the first module, so they part where a module or a struct is declared twice.

## Main definitions

* `Program.namesakes` — the structs with one full name.
* `Program.Unambiguous` — a name that is declared once at most.
-/

namespace MoveTyping

theorem Record.lastNamed_eq_getLast? (rs : List Record) (q : QName) :
    lastNamed rs q = (rs.filter (·.name = q)).getLast? := by
  rw [lastNamed, ← List.head?_filter, List.filter_reverse, List.head?_reverse]

/-! ## Structs by name -/

namespace Program

variable {p : Program} {aliases : Aliases} {m d : NodeId} {name : String}

/-- The modules of a name at an address, in order. -/
def modulesOf (p : Program) (aliases : Aliases) (address module : String) : List NodeId :=
  p.modules.filter fun m => p.moduleKey? aliases m = some (aliases.normalize address, module)

/-- The structs of a name in a module, in order. -/
def structsOf (p : Program) (name : String) (m : NodeId) : List NodeId :=
  (p.items m).filter (p.isStruct name)

/-- The structs with a full name, in the order in which they are declared. -/
def namesakes (p : Program) (aliases : Aliases) (address module name : String) : List NodeId :=
  (p.modulesOf aliases address module).flatMap (p.structsOf name)

/-- The name is that of one module at most, and of one struct in it at most. -/
def Unambiguous (p : Program) (aliases : Aliases) (q : QName) : Prop :=
  ∀ address module, q.address = some address → q.module = some module →
    (p.modulesOf aliases address module).length ≤ 1 ∧
      ∀ m ∈ p.modulesOf aliases address module, (p.structsOf q.name m).length ≤ 1

/-- Normalization leaves the normalized addresses of the modules alone. -/
def NormalKeys (p : Program) (aliases : Aliases) : Prop :=
  ∀ m ∈ p.modules, (p.moduleKey? aliases m).all fun key => aliases.normalize key.1 = key.1

instance (p : Program) (aliases : Aliases) : Decidable (p.NormalKeys aliases) := by
  unfold NormalKeys
  infer_instance

theorem findModule?_eq_head? (p : Program) (aliases : Aliases) (address module : String) :
    p.findModule? aliases (some address) module = (p.modulesOf aliases address module).head? := by
  rw [findModule?, modulesOf, List.head?_filter]
  refine congrArg (List.find? · p.modules) (funext fun m => ?_)
  cases hm : p.identity? m with
  | none => simp [moduleKey?, hm]
  | some key => simp [moduleKey?, hm, Prod.ext_iff, and_comm]

theorem findStruct?_eq_head? (p : Program) (aliases : Aliases) (address module name : String) :
    p.findStruct? aliases (some address) module name =
      (p.modulesOf aliases address module).head?.bind fun m => (p.structsOf name m).head? := by
  simp only [findStruct?, findModule?_eq_head?, structsOf, List.head?_filter]
  rfl

end Program

namespace Env

variable {p : Program} {catalog : Catalog} {m d : NodeId} {name : String} {r : Record} {q : QName}

/-- The name of a record tells which struct of which module it belongs to. -/
theorem filter_structRecord? (hp : ∀ t ∈ p.trees, t.WellFormed) (hm : m ∈ p.modules)
    (hd : d ∈ p.items m) (address module name : String) :
    ((ofProgram p catalog).structRecord? d).filter (·.name = .full address module name) =
      if p.moduleKey? catalog.aliases m = some (address, module) ∧ p.isStruct name d = true then
        (ofProgram p catalog).structRecord? d
      else none := by
  cases hr : (ofProgram p catalog).structRecord? d with
  | none => simp
  | some r =>
    obtain ⟨declared, hdeclared⟩ := exists_isStruct hr
    have hname := @structRecord?_of_mem_items p catalog m d declared hp hm hd hdeclared
    rw [hr, Option.map_some, eq_comm, Option.map_eq_some_iff] at hname
    obtain ⟨key, hkey, hname⟩ := hname
    have hstruct : p.isStruct name d = true ↔ declared = name := Program.isStruct_iff hdeclared
    simp only [Option.filter_some, ← hname, hkey, hstruct, QName.full, QName.mk.injEq,
      Option.some.injEq, decide_eq_true_eq, Prod.ext_iff, and_assoc]

theorem exists_structRecord? (hp : ∀ t ∈ p.trees, t.WellFormed) {address module : String}
    (hd : d ∈ p.namesakes catalog.aliases address module name) :
    ∃ r, (ofProgram p catalog).structRecord? d = some r := by
  obtain ⟨m, hm, hd⟩ := List.mem_flatMap.1 hd
  obtain ⟨hm, hkey⟩ := List.mem_filter.1 hm
  obtain ⟨hd, hstruct⟩ := List.mem_filter.1 hd
  have hname := @structRecord?_of_mem_items p catalog m d name hp hm hd hstruct
  rw [of_decide_eq_true hkey, Option.map_some, Option.map_eq_some_iff] at hname
  obtain ⟨r, hr, -⟩ := hname
  exact ⟨r, hr⟩

/-! ## The index -/

theorem flatMap_declaredRecords (p : Program) (catalog : Catalog) :
    p.files.flatMap (ofProgram p catalog).declaredRecords =
      p.modules.flatMap fun m => (p.items m).filterMap (ofProgram p catalog).structRecord? := by
  rw [Program.files, Program.modules, List.flatMap_map, List.flatMap_assoc]
  refine List.flatMap_congr fun t ht => ?_
  have htree : (ofProgram p catalog).program.tree? t.file = some t := Program.mem_trees.1 ht
  simp only [declaredRecords, htree, List.filterMap_flatMap]
  refine List.flatMap_congr fun m hm => ?_
  rw [Program.items_eq (Tree.file_of_mem_modules hm ▸ htree)]

/-- The records of a name are those of its namesakes. -/
theorem filter_declaredRecords (hp : ∀ t ∈ p.trees, t.WellFormed) {address : String}
    (hnormal : catalog.aliases.normalize address = address) (module name : String) :
    (p.files.flatMap (ofProgram p catalog).declaredRecords).filter
        (·.name = .full address module name) =
      (p.namesakes catalog.aliases address module name).filterMap
        (ofProgram p catalog).structRecord? := by
  have hmodule : ∀ m ∈ p.modules,
      ((p.items m).filterMap (ofProgram p catalog).structRecord?).filter
          (·.name = .full address module name) =
        if p.moduleKey? catalog.aliases m = some (address, module) then
          (p.structsOf name m).filterMap (ofProgram p catalog).structRecord?
        else [] := by
    intro m hm
    rw [List.filter_filterMap, Program.structsOf, List.filterMap_filter]
    split
    · next hkey =>
      refine List.filterMap_congr fun d hd => ?_
      simp [filter_structRecord? hp hm hd, hkey]
    · next hkey =>
      refine List.filterMap_eq_nil_iff.2 fun d hd => ?_
      simp [filter_structRecord? hp hm hd, hkey]
  rw [flatMap_declaredRecords, List.filter_flatMap, List.flatMap_congr hmodule, Program.namesakes,
    Program.modulesOf, hnormal, List.filterMap_flatMap]
  -- the modules of other names contribute nothing
  induction p.modules with
  | nil => rfl
  | cons m ms ih =>
    rw [List.flatMap_cons, ih, List.filter_cons]
    by_cases hkey : p.moduleKey? catalog.aliases m = some (address, module) <;> simp [hkey]

/-- The index has the last of the namesakes. -/
theorem declared?_full (hp : ∀ t ∈ p.trees, t.WellFormed) {address : String}
    (hnormal : catalog.aliases.normalize address = address) (module name : String) :
    (ofProgram p catalog).declared? (.full address module name) =
      (p.namesakes catalog.aliases address module name).getLast?.bind
        (ofProgram p catalog).structRecord? := by
  have hprogram : (ofProgram p catalog).program = p := rfl
  rw [declared?, hprogram, Record.lastNamed_eq_getLast?, filter_declaredRecords hp hnormal]
  have hrecords := @exists_structRecord? p catalog
  generalize hds : p.namesakes catalog.aliases address module name = ds
  rcases List.eq_nil_or_concat ds with rfl | ⟨ds, d, rfl⟩
  · rfl
  · obtain ⟨r, hr⟩ := hrecords hp (d := d) (by rw [hds]; simp)
    simp [hr]

/-- An engine finds the first struct of the first module. -/
theorem found?_full (p : Program) (catalog : Catalog) (address module name : String) :
    (ofProgram p catalog).found? (.full address module name) =
      ((p.modulesOf catalog.aliases address module).head?.bind fun m =>
        (p.structsOf name m).head?).elim (catalog.record? (.full address module name))
          (ofProgram p catalog).structRecord? := by
  have hfind : (ofProgram p catalog).findStruct? (.full address module name) =
      p.findStruct? catalog.aliases (some address) module name := rfl
  rw [found?, hfind, Program.findStruct?_eq_head?]
  cases (p.modulesOf catalog.aliases address module).head?.bind fun m =>
    (p.structsOf name m).head? <;> rfl

/-- The record of a name in normal form is that of its last namesake, or else the library's. -/
theorem record?_full (hp : ∀ t ∈ p.trees, t.WellFormed) {address : String}
    (hnormal : catalog.aliases.normalize address = address) (module name : String) :
    (ofProgram p catalog).record? (.full address module name) =
      (p.namesakes catalog.aliases address module name).getLast?.elim
        (catalog.record? (.full address module name)) (ofProgram p catalog).structRecord? := by
  rw [record?, declared?_full hp hnormal]
  cases hlast : (p.namesakes catalog.aliases address module name).getLast? with
  | some d =>
    obtain ⟨r, hr⟩ := exists_structRecord? hp (List.mem_of_getLast? hlast)
    simp [hr]
  | none =>
    -- without namesakes there is no struct in the first module either
    have hnone := List.flatMap_eq_nil_iff.1 (List.getLast?_eq_none_iff.1 hlast)
    rw [Option.bind_none, Option.none_or, found?_full]
    cases hmodules : p.modulesOf catalog.aliases address module with
    | nil => rfl
    | cons m ms =>
      have hm : p.structsOf name m = [] := hnone m (hmodules ▸ List.mem_cons_self)
      simp [hm]

/-- Both ways lead to the same record of an unambiguous name. -/
theorem record?_eq_found? (hp : ∀ t ∈ p.trees, t.WellFormed)
    (hkeys : p.NormalKeys catalog.aliases) (hq : p.Unambiguous catalog.aliases q) :
    (ofProgram p catalog).record? q = (ofProgram p catalog).found? q := by
  cases hdeclared : (ofProgram p catalog).declared? q with
  | none => rw [record?, hdeclared, Option.none_or]
  | some r =>
    -- only full names in normal form are declared
    have hname : q ∈ ((ofProgram p catalog).program.files.flatMap
        (ofProgram p catalog).declaredRecords).map Record.name := by
      by_contra hnot
      rw [declared?, Record.lastNamed_eq_none_iff.2 hnot] at hdeclared
      cases hdeclared
    rw [List.map_flatMap, List.mem_flatMap] at hname
    obtain ⟨f, -, hmem⟩ := hname
    obtain ⟨m, hm, -, address, module, name, hkey, rfl⟩ := moduleKey?_of_mem_declaredNames hp hmem
    have hnormal : catalog.aliases.normalize address = address := by
      have := hkeys m hm
      rw [hkey] at this
      simpa using this
    obtain ⟨hmodules, hstructs⟩ := hq address module rfl rfl
    rw [record?_full hp hnormal, found?_full, Program.namesakes]
    rcases Nat.le_one_iff_eq_zero_or_eq_one.1 hmodules with hzero | hone
    · rw [List.length_eq_zero_iff.1 hzero]
      rfl
    · obtain ⟨m, hms⟩ := List.length_eq_one_iff.1 hone
      have hm : (p.structsOf name m).length ≤ 1 := hstructs m (hms ▸ List.mem_cons_self)
      rcases Nat.le_one_iff_eq_zero_or_eq_one.1 hm with hzero | hone
      · simp [hms, List.length_eq_zero_iff.1 hzero]
      · obtain ⟨d, hds⟩ := List.length_eq_one_iff.1 hone
        simp [hms, hds]

end Env

/-! ## Two ways to a record -/

namespace Session

/-- Let `s` be the session of some trees and `c` a cache with an empty index. Then an engine of `s`
gets the record of an unambiguous name from `c` as it gets it from the index of `s`. In general it
gets the record of the last namesake from the index, and with `c` that of the first struct in the
first module; only where there is none does the library come in. -/
theorem lookup_indexed (settings : Settings) (catalog : Catalog) {p : Program} {trees : List Tree}
    (htrees : trees.Perm p.trees) (hp : ∀ t ∈ p.trees, t.WellFormed)
    (hkeys : p.NormalKeys catalog.aliases) {s : Session}
    (hs : s = ofTrees settings catalog trees) {c : Cache} (hc : ∀ q, c.record? q = none) :
    (∀ q, p.Unambiguous catalog.aliases q →
      (s.inference.lookup q s.cache).1 = (s.inference.lookup q c).1) ∧
    ∀ address module name, catalog.aliases.normalize address = address →
      (s.inference.lookup (.full address module name) s.cache).1 =
        (p.namesakes catalog.aliases address module name).getLast?.elim
          (catalog.record? (.full address module name)) s.env.structRecord? ∧
      (s.inference.lookup (.full address module name) c).1 =
        ((p.modulesOf catalog.aliases address module).head?.bind fun m =>
          (p.structsOf name m).head?).elim
            (catalog.record? (.full address module name)) s.env.structRecord? := by
  have hnew := new_ofTrees_of_perm settings catalog htrees
  rw [← hs] at hnew
  have henv : s.env = .ofProgram p catalog := by rw [env, hnew.program, hnew.catalog]
  have heager : ∀ q, (s.inference.lookup q s.cache).1 = (Env.ofProgram p catalog).record? q := by
    intro q
    rw [Inference.lookup_fst, hnew.pristine.records, ← henv]
    rfl
  have hlazy : ∀ q, (s.inference.lookup q c).1 = (Env.ofProgram p catalog).found? q := by
    intro q
    rw [Inference.lookup_fst, hc, Option.none_or, ← henv]
    rfl
  refine ⟨fun q hq => ?_, fun address module name hnormal => ⟨?_, ?_⟩⟩
  · rw [heager, hlazy, Env.record?_eq_found? hp hkeys hq]
  · rw [heager, henv, Env.record?_full hp hnormal]
  · rw [hlazy, henv, Env.found?_full]

/-- `module 0x5::m { struct S has copy {} struct S has drop {} struct R has store {} }` -/
def twiceTree : Tree := Build.tree 0 do
  Build.module "0x5" "m" [← Build.struct "S" [] ["copy"] [], ← Build.struct "S" [] ["drop"] [],
    ← Build.struct "R" [] ["store"] []]

theorem lookup_indexed_twice :
    (((ofTrees {} .empty [twiceTree]).inference.lookup (.full "0x5" "m" "R")
      (ofTrees {} .empty [twiceTree]).cache).1 =
      ((ofTrees {} .empty [twiceTree]).inference.lookup (.full "0x5" "m" "R") (.ofSettings {})).1) ∧
    (((ofTrees {} .empty [twiceTree]).inference.lookup (.full "0x5" "m" "R")
      (.ofSettings {})).1.map Record.abilities = some (.ofKeywords ["store"])) ∧
    (((ofTrees {} .empty [twiceTree]).inference.lookup (.full "0x5" "m" "S")
      (ofTrees {} .empty [twiceTree]).cache).1.map Record.abilities =
        some (.ofKeywords ["drop"])) := by
  obtain ⟨hsame, hrecords⟩ := @lookup_indexed {} .empty ⟨[twiceTree], by decide⟩ [twiceTree]
    (.refl _) (by decide +kernel) (by decide +kernel) _ rfl (.ofSettings {}) (fun _ => rfl)
  refine ⟨hsame _ ?_, by decide +kernel, ?_⟩
  · rintro _ _ ⟨⟩ ⟨⟩
    decide +kernel
  · rw [(hrecords "0x5" "m" "S" (by decide +kernel)).1]
    decide +kernel

/-- Of two structs with one name the index has the last, and an engine without it finds the
first. -/
theorem lookup_of_duplicate :
    ((ofTrees {} .empty [twiceTree]).inference.lookup (.full "0x5" "m" "S")
      (ofTrees {} .empty [twiceTree]).cache).1.map Record.abilities =
        some (.ofKeywords ["drop"]) ∧
    ((ofTrees {} .empty [twiceTree]).inference.lookup (.full "0x5" "m" "S")
      (.ofSettings {})).1.map Record.abilities = some (.ofKeywords ["copy"]) := by
  exact ⟨by decide +kernel, by decide +kernel⟩

end Session

end MoveTyping
