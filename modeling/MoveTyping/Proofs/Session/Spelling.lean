import MoveTyping.Proofs.Address
import MoveTyping.Proofs.Infer.Abilities
import MoveTyping.Proofs.Session.Namesakes
import MoveTyping.Proofs.Session.Reset

/-!
# Spellings

The index of a session follows the trees under the names that the trees declare, and these have
their address in normal form. An engine that comes across a struct under another spelling of its
address, or without an address, indexes the record under that spelling as well, and there it stays
until the next reset. So the abilities of a type are always those of the current trees if its names
are in normal form, and under another spelling they are what they were when first asked for.

## Main definitions

* `QName.Normal` — the names that the index follows.
* `QName.Foreign` — the names that no tree declares.
* `Program.Orderly` — what is asked of the trees.
* `Session.InStep` — the index follows the trees.
-/

namespace MoveTyping

/-- The address is in normal form. Names without a module denote no struct and need no address. -/
def QName.Normal (aliases : Aliases) (q : QName) : Prop :=
  q.module = none ∨ ∃ address, q.address = some address ∧ aliases.normalize address = address

/-- The address is not the normal form of any. -/
def QName.Foreign (aliases : Aliases) (q : QName) : Prop :=
  ∀ address, q.address ≠ some (aliases.normalize address)

/-- A name is foreign if its address has leading zeros or capital letters. -/
theorem QName.foreign_of_padded {aliases : Aliases} {address : String} {hex : List Char}
    (halias : ∀ key, aliases.get? key ≠ some address)
    (hhex : canonicalHex? address.toList = some hex) (hne : hex ≠ address.toList)
    (module name : String) : (full address module name).Foreign aliases := fun written h =>
  Aliases.normalize_ne_of_padded halias hhex hne written (Option.some.inj h).symm

namespace Program

variable {aliases : Aliases} {p : Program}

/-- The trees are well formed, and no module is declared by two files. -/
def Orderly (aliases : Aliases) (p : Program) : Prop :=
  (∀ t ∈ p.trees, t.WellFormed) ∧ p.DistinctModules aliases

instance (aliases : Aliases) (p : Program) : Decidable (p.Orderly aliases) := by
  unfold Orderly
  infer_instance

/-- The trees are orderly at any time while the commands are executed. -/
def StaysOrderly (aliases : Aliases) (p : Program) (cs : List Command) : Prop :=
  ∀ past, past <+: cs → (past.foldl (fun p c => c.edit p) p).Orderly aliases

theorem StaysOrderly.cons {c : Command} {cs : List Command}
    (h : p.StaysOrderly aliases (c :: cs)) : (c.edit p).StaysOrderly aliases cs :=
  fun past hpast => h (c :: past) ((List.prefix_cons_inj c).2 hpast)

theorem StaysOrderly.append {cs cs' : List Command} (h : p.StaysOrderly aliases (cs ++ cs')) :
    p.StaysOrderly aliases cs ∧
      (cs.foldl (fun p c => c.edit p) p).StaysOrderly aliases cs' := by
  refine ⟨fun past hpast => h past (hpast.trans (List.prefix_append cs cs')), fun past hpast => ?_⟩
  rw [← List.foldl_append]
  exact h (cs ++ past) ((List.prefix_append_right_inj cs).2 hpast)

theorem StaysOrderly.now {cs : List Command} (h : p.StaysOrderly aliases cs) :
    p.Orderly aliases := h [] (List.nil_prefix)

end Program

/-! ## Shapes of declared records -/

theorem Record.lastNamed_map_shape (rs : List Record) (q : QName) :
    lastNamed (rs.map shape) q = (lastNamed rs q).map shape := by
  rw [lastNamed, lastNamed, ← List.map_reverse, List.find?_map]
  rfl

namespace Env

variable {env env' : Env} {f g : FileId} {p : Program} {catalog : Catalog} {q : QName} {r : Record}
  {d : NodeId}

theorem DiffersAt.shape_structRecord? (h : DiffersAt f env env') (hd : d.file ≠ f) :
    (env'.structRecord? d).map Record.shape = (env.structRecord? d).map Record.shape := by
  unfold Env.structRecord?
  rw [h.program.kind? hd, h.itemName? hd]
  split
  · next hk =>
    obtain ⟨habilities, htypeParams, -⟩ := h.struct hd hk
    rw [Option.map_map, Option.map_map]
    refine congrArg (Option.map · _) (funext fun name => ?_)
    simp only [Function.comp_apply, Record.shape, habilities, htypeParams]
  · rfl

/-- The structs of other files are declared with the same names, abilities and type parameters. -/
theorem DiffersAt.shape_declaredRecords (h : DiffersAt f env env') (hg : g ≠ f) :
    (env'.declaredRecords g).map Record.shape = (env.declaredRecords g).map Record.shape :=
  h.map_declaredRecords Record.shape (fun _ hd => h.shape_structRecord? hd) hg

/-- The record of a name is declared by the file that declares the name. -/
theorem declared?_of_mem (hp : p.Orderly catalog.aliases)
    (hq : q ∈ (ofProgram p catalog).declaredNames g) :
    (ofProgram p catalog).declared? q =
      Record.lastNamed ((ofProgram p catalog).declaredRecords g) q :=
  declared?_eq_lastNamed (mem_files_of_mem_declaredNames hq) fun _ _ hne hmem =>
    hne (file_unique hp.1 hp.2 hmem hq)

/-- A struct that is found under a name in normal form is declared under this name. -/
theorem declared?_isSome_of_normal (hp : ∀ t ∈ p.trees, t.WellFormed)
    (hq : q.Normal catalog.aliases) (hr : (ofProgram p catalog).ownRecord? q = some r) :
    ((ofProgram p catalog).declared? q).isSome := by
  obtain ⟨d, hd, -⟩ := Option.bind_eq_some_iff.1 hr
  obtain ⟨module, hmodule, hd⟩ := Option.bind_eq_some_iff.1 hd
  rcases hq with hnone | ⟨address, haddress, hnormal⟩
  · rw [hnone] at hmodule
    cases hmodule
  · obtain ⟨_, _, name⟩ := q
    obtain rfl : _ = some module := hmodule
    obtain rfl : _ = some address := haddress
    have hd : p.findStruct? catalog.aliases (some address) module name = some d := hd
    rw [Program.findStruct?_eq_head?] at hd
    obtain ⟨m, hm, hd⟩ := Option.bind_eq_some_iff.1 hd
    -- so there is a namesake, and the last one is what the index has
    have hmem : d ∈ p.namesakes catalog.aliases address module name :=
      List.mem_flatMap.2 ⟨m, List.mem_of_head? hm, List.mem_of_head? hd⟩
    obtain ⟨d', hlast⟩ : ∃ d', (p.namesakes catalog.aliases address module name).getLast? =
        some d' := Option.ne_none_iff_exists'.1 fun hnil => by
      rw [List.getLast?_eq_none_iff.1 hnil] at hmem
      cases hmem
    obtain ⟨r', hr'⟩ := exists_structRecord? hp (List.mem_of_getLast? hlast)
    have hdeclared := @declared?_full p catalog hp address hnormal module name
    rw [hlast, Option.bind_some, hr'] at hdeclared
    exact Option.isSome_iff_exists.2 ⟨r', hdeclared⟩

theorem notMem_declaredNames_of_foreign (hp : ∀ t ∈ p.trees, t.WellFormed)
    (hq : q.Foreign catalog.aliases) : q ∉ (ofProgram p catalog).declaredNames g := by
  intro hmem
  obtain ⟨m, -, -, address, module, name, hkey, rfl⟩ := moduleKey?_of_mem_declaredNames hp hmem
  obtain ⟨⟨written, _⟩, -, hkey⟩ := Option.map_eq_some_iff.1 hkey
  exact hq written (congrArg some (Prod.ext_iff.1 hkey).1.symm)

end Env

/-! ## Sessions in step with their trees -/

namespace Session

variable {s s' : Session} {f : FileId} {q : QName} {r : Record} {c : Command} {t : Ty}

/-- The index follows the trees: what the trees declare is indexed, up to the types of fields, and
under a name in normal form nothing else is. -/
structure InStep (s : Session) : Prop where
  ready : s.cache.Ready s.files
  orderly : s.program.Orderly s.catalog.aliases
  indexed : ∀ g ∈ s.files, s.indexed.get? g = some (s.env.declaredNames g)
  declared : ∀ {q r}, s.env.declared? q = some r →
    (s.cache.record? q).map Record.shape = some r.shape
  normal : ∀ {q}, q.Normal s.catalog.aliases → s.env.declared? q = none →
    s.cache.record? q = none

theorem Pristine.inStep (h : s.Pristine) (hready : s.cache.Ready s.files)
    (horderly : s.program.Orderly s.catalog.aliases) : s.InStep where
  ready := hready
  orderly := horderly
  indexed := h.indexed
  declared {q r} hq := by rw [h.records, hq]; rfl
  normal {q} _ hq := by rw [h.records, hq]

/-! ## Steps -/

/-- A command that does not reset the session revises a file, or it leaves trees and marks alone. -/
theorem revised_or_asked (h : s.InStep) (hc : ¬s.Resets c) :
    (∃ f, Revised f s (s.execute c).2 ∧ Env.DiffersAt f s.env (s.execute c).2.env) ∨
      s.Asked (s.execute c).2 := by
  have hclosed : s.program.Closed := fun t ht => (h.orderly.1 t ht).closed
  have hcatalog : (s.execute c).2.catalog = s.catalog := (s.frame_execute c).2.1
  have hprogram := s.program_execute c
  have hdiffers : ∀ {f}, s.program.DiffersAt f (c.edit s.program) →
      Env.DiffersAt f s.env (s.execute c).2.env := fun hdiffers =>
    ⟨hcatalog, by rw [← hprogram] at hdiffers; exact hdiffers, hclosed⟩
  cases c with
  | set t =>
    simp only [Resets, not_forall, Bool.not_eq_false] at hc
    obtain ⟨old, hold, hitems⟩ := hc
    exact .inl ⟨t.file, revised_setFile h.ready.tidy.timed h.indexed hold hitems,
      hdiffers (s.program.differsAt_insert t)⟩
  | remove f =>
    by_cases hf : f ∈ s.files
    · exact .inl ⟨f, revised_removeFile h.ready.tidy.timed h.indexed hf,
        hdiffers (s.program.differsAt_erase f)⟩
    · refine .inr ?_
      rw [execute, removeFile_of_notMem hf]
      exact .refl s
  | reload => exact absurd trivial hc
  | sweep =>
    exact .inr ⟨rfl, rfl, rfl, rfl, .of_index_eq (.sweep s.cache) (Nat.le_succ _) rfl⟩
  | ask request => exact .inr (s.asked_serve request)

namespace InStep

theorem asked (h : s.InStep) (hs : s.Asked s') (hready : s'.cache.Ready s'.files) : s'.InStep := by
  have hprogram : s'.program = s.program := congrArg Sources.program hs.sources
  refine ⟨hready, ?_, ?_, fun {q r} hq => ?_, fun {q} hnormal hq => ?_⟩
  · rw [hprogram, hs.catalog]
    exact h.orderly
  · rw [files, hprogram, hs.indexed, hs.env]
    exact h.indexed
  · rw [hs.env] at hq
    have hdeclared := h.declared hq
    obtain ⟨r', hr', -⟩ := Option.map_eq_some_iff.1 hdeclared
    rwa [hs.cache.indexed hr', ← hr']
  · rw [hs.catalog] at hnormal
    rw [hs.env] at hq
    -- an engine indexes nothing under a name that is not declared
    have hown : s.env.ownRecord? q = none := by
      refine Option.eq_none_iff_forall_ne_some.2 fun r hr => ?_
      have hsome := Env.declared?_isSome_of_normal h.orderly.1 hnormal hr
      rw [env] at hq
      rw [hq] at hsome
      cases hsome
    have hrecords := hs.cache.records q
    rwa [hown, Option.or_none, Option.or_none, h.normal hnormal hq] at hrecords

/-- A name that the file of an edit does not declare has the record that it had. -/
theorem record?_of_revised (hrevised : Revised f s s') (hold : q ∉ s.env.declaredNames f)
    (hnew : q ∉ s'.env.declaredNames f) : s'.cache.record? q = s.cache.record? q := by
  rw [hrevised.record, Env.lastNamed_eq_none_iff.2 hnew, if_neg hold, Option.none_or]

section Revised

variable (h : s.InStep) (hrevised : Revised f s s') (hdiffers : Env.DiffersAt f s.env s'.env)
  (horderly : s'.program.Orderly s'.catalog.aliases)

include h hrevised hdiffers horderly in
/-- A struct of the edited file is indexed anew, and that of another file keeps its record. -/
theorem shape_of_revised (hq : s'.env.declared? q = some r) :
    (s'.cache.record? q).map Record.shape = some r.shape := by
  have hcatalog : s'.catalog = s.catalog := hdiffers.catalog
  have henv : s'.env = .ofProgram s'.program s.catalog := by rw [env, hcatalog]
  rw [hcatalog] at horderly
  obtain ⟨g, hg⟩ : ∃ g, q ∈ s'.env.declaredNames g := by
    by_contra hno
    have hnone := Env.declared?_eq_none_iff.2 fun g _ hmem => hno ⟨g, hmem⟩
    rw [hq] at hnone
    cases hnone
  have hlast : Record.lastNamed (s'.env.declaredRecords g) q = some r := by
    rw [henv] at hg hq ⊢
    rw [← Env.declared?_of_mem horderly hg, hq]
  by_cases hgf : g = f
  · rw [hrevised.record, ← hgf, hlast]
    rfl
  · -- no other file than this one declares the name, before and after the edit
    have hnames := hdiffers.declaredNames hgf
    have hmem : q ∈ s.env.declaredNames g := hnames ▸ hg
    have hother : q ∉ s.env.declaredNames f ∧ q ∉ s'.env.declaredNames f := by
      rw [henv] at hg hnames ⊢
      exact not_or.1 fun hf =>
        Env.not_declared h.orderly.1 h.orderly.2 horderly.1 horderly.2 hnames hgf hf hg
    have hshape : (s.env.declared? q).map Record.shape = some r.shape := by
      rw [show s.env.declared? q = Record.lastNamed (s.env.declaredRecords g) q from
        Env.declared?_of_mem h.orderly hmem, ← Record.lastNamed_map_shape,
        ← hdiffers.shape_declaredRecords hgf, Record.lastNamed_map_shape, hlast]
      rfl
    obtain ⟨r', hr', hshape⟩ := Option.map_eq_some_iff.1 hshape
    rw [record?_of_revised hrevised hother.1 hother.2, h.declared hr', hshape]

include h hrevised hdiffers in
theorem record?_of_revised_of_normal (hnormal : q.Normal s.catalog.aliases)
    (hq : s'.env.declared? q = none) : s'.cache.record? q = none := by
  have hnot : ∀ g, q ∉ s'.env.declaredNames g := fun g hmem =>
    Env.declared?_eq_none_iff.1 hq g (Env.mem_files_of_mem_declaredNames hmem) hmem
  by_cases hold : q ∈ s.env.declaredNames f
  · rw [hrevised.record, Env.lastNamed_eq_none_iff.2 (hnot f), if_pos hold, Option.none_or]
  · rw [record?_of_revised hrevised hold (hnot f)]
    refine h.normal hnormal (Env.declared?_eq_none_iff.2 fun g _ => ?_)
    by_cases hgf : g = f
    · exact hgf ▸ hold
    · exact hdiffers.declaredNames hgf ▸ hnot g

include h hrevised hdiffers horderly in
theorem revised (hready : s'.cache.Ready s'.files) : s'.InStep where
  ready := hready
  orderly := horderly
  indexed g hg := by
    rw [hrevised.indexed g hg]
    split
    · next hgf => rw [hgf]
    · next hgf =>
      have htree : s'.program.tree? g = s.program.tree? g := hdiffers.program g hgf
      rw [files, Program.mem_files, htree, ← Program.mem_files] at hg
      rw [h.indexed g hg, hdiffers.declaredNames hgf]
  declared hq := shape_of_revised h hrevised hdiffers horderly hq
  normal hnormal hq := by
    have hcatalog : s'.catalog = s.catalog := hdiffers.catalog
    exact record?_of_revised_of_normal h hrevised hdiffers (hcatalog ▸ hnormal) hq

end Revised

theorem execute (h : s.InStep) (c : Command)
    (horderly : (c.edit s.program).Orderly s.catalog.aliases) : (s.execute c).2.InStep := by
  have hready := ((Twin.refl h.ready).execute c).2.cache.left
  have horderly : (s.execute c).2.program.Orderly (s.execute c).2.catalog.aliases := by
    rwa [program_execute, (s.frame_execute c).2.1]
  by_cases hc : s.Resets c
  · exact (pristine_execute h.ready.tidy.timed hc).inStep hready horderly
  · rcases revised_or_asked h hc with ⟨f, hrevised, hdiffers⟩ | hasked
    · exact h.revised hrevised hdiffers horderly hready
    · exact h.asked hasked hready

theorem executeAll (h : s.InStep) {cs : List Command}
    (hcs : s.program.StaysOrderly s.catalog.aliases cs) : (s.executeAll cs).2.InStep := by
  induction cs generalizing s with
  | nil => exact h
  | cons c cs ih =>
    rw [executeAll_cons]
    refine ih (h.execute c hcs.cons.now) ?_
    rw [program_execute, (s.frame_execute c).2.1]
    exact hcs.cons

end InStep

theorem inStep_start (settings : Settings) (catalog : Catalog) :
    (start settings catalog).InStep :=
  (pristine_start settings catalog).inStep (twin_start settings catalog).cache.left
    ⟨fun _ ht => (nomatch ht), fun _ hm => (nomatch hm)⟩

/-! ## Answers -/

theorem hasAbility_fst (s : Session) (t : Ty) (a : Ability) :
    (s.hasAbility t a).1 = (t.abilities s.known?).has a :=
  Inference.perform_of_consults (i := s.inference) (e := .ofCache s.cache)
    (t.consults_abilitiesM.bind (Rule.consults_pure _))

theorem hasAbilities_fst (s : Session) (t : Ty) (required : AbilitySet) :
    (s.hasAbilities t required).1 = (t.abilities s.known?).covers required :=
  Inference.perform_of_consults (i := s.inference) (e := .ofCache s.cache)
    (t.consults_abilitiesM.bind (Rule.consults_pure _))

/-- The session follows the trees under this name: the name is in normal form, or nothing is indexed
under it, as when it was not asked for yet. -/
def Follows (s : Session) (q : QName) : Prop :=
  q.Normal s.catalog.aliases ∨ s.cache.record? q = none

theorem InStep.shape_known? (h : s.InStep) (hq : s.Follows q) :
    (s.known? q).map Record.shape = (s.env.record? q).map Record.shape := by
  rw [known?, Env.record?]
  cases hdeclared : s.env.declared? q with
  | some r =>
    have hshape := h.declared hdeclared
    obtain ⟨r', hr', hshape⟩ := Option.map_eq_some_iff.1 hshape
    rw [hr']
    exact congrArg some hshape
  | none =>
    have hnone : s.cache.record? q = none := hq.elim (h.normal · hdeclared) id
    rw [hnone]

/-- Abilities in a session that is in step are those of a new session on the same trees. -/
theorem InStep.abilities_eq (h : s.InStep) (ht : ∀ q ∈ t.names, s.Follows q) {s₀ : Session}
    (hs₀ : s₀.Pristine) (henv : s₀.env = s.env) :
    t.abilities s.known? = t.abilities s₀.known? := by
  refine Ty.abilities_congr fun q hq => ?_
  rw [h.shape_known? (ht q hq), known?, hs₀.records, henv]
  rfl

/-! ## Foreign spellings -/

/-- No command of the list resets the session. -/
def Unreset (s : Session) : List Command → Prop
  | [] => True
  | c :: cs => ¬s.Resets c ∧ (s.execute c).2.Unreset cs

theorem InStep.record?_execute (h : s.InStep)
    (horderly : (c.edit s.program).Orderly s.catalog.aliases) (hc : ¬s.Resets c)
    (hq : q.Foreign s.catalog.aliases) (hr : s.cache.record? q = some r) :
    (s.execute c).2.cache.record? q = some r := by
  rcases revised_or_asked h hc with ⟨f, hrevised, -⟩ | hasked
  · have hold : q ∉ s.env.declaredNames f :=
      Env.notMem_declaredNames_of_foreign h.orderly.1 hq
    have hnew : q ∉ (s.execute c).2.env.declaredNames f := by
      rw [env, program_execute, (s.frame_execute c).2.1]
      exact Env.notMem_declaredNames_of_foreign horderly.1 hq
    rw [record?_of_revised hrevised hold hnew, hr]
  · exact hasked.cache.indexed hr

/-- What is indexed under a foreign spelling stays until the next reset. -/
theorem InStep.record?_executeAll (h : s.InStep) {cs : List Command}
    (hcs : s.program.StaysOrderly s.catalog.aliases cs) (hunreset : s.Unreset cs)
    (hq : q.Foreign s.catalog.aliases) (hr : s.cache.record? q = some r) :
    (s.executeAll cs).2.cache.record? q = some r := by
  induction cs generalizing s with
  | nil => exact hr
  | cons c cs ih =>
    have hcatalog := (s.frame_execute c).2.1
    rw [executeAll_cons]
    refine ih (h.execute c hcs.cons.now) ?_ hunreset.2 (hcatalog.symm ▸ hq)
      (h.record?_execute hcs.cons.now hunreset.1 hq hr)
    rw [program_execute, hcatalog]
    exact hcs.cons

/-- A struct of the trees is indexed under the name by which it is asked for. -/
theorem record?_hasAbility (hown : s.env.ownRecord? q = some r) (a : Ability) :
    (s.hasAbility (.named q) a).2.cache.record? q = s.known? q := by
  have hown' : s.inference.env.ownRecord? q = some r := hown
  have hcache : (s.hasAbility (.named q) a).2.cache = (s.inference.lookup q s.cache).2 := by
    rw [hasAbility, perform, Inference.perform_eq]
    rfl
  rw [hcache, known?, Env.found?_of_ownRecord? hown]
  cases hq : s.cache.record? q with
  | some r' =>
    simp only [Inference.lookup, hq]
    rfl
  | none =>
    have hgeneration : s.cache.generation = s.inference.generation := rfl
    simp only [Inference.lookup, hq, hown', Cache.indexRecordAt, hgeneration, ↓reduceIte]
    exact Table.get?_insert_self ..

/-- What is said of a struct under a foreign spelling is said until the next reset. -/
theorem InStep.hasAbility_executeAll (h : s.InStep) {a : Ability} {cs : List Command}
    (hcs : s.program.StaysOrderly s.catalog.aliases (.ask (.ability (.named q) a) :: cs))
    (hq : q.Foreign s.catalog.aliases) (hown : s.env.ownRecord? q = some r)
    (hunreset : (s.hasAbility (.named q) a).2.Unreset cs) (b : Ability) :
    (((s.hasAbility (.named q) a).2.executeAll cs).2.hasAbility (.named q) b).1 =
      (s.hasAbility (.named q) b).1 := by
  have hafter : (s.hasAbility (.named q) a).2.InStep :=
    h.execute (.ask (.ability (.named q) a)) hcs.now
  obtain ⟨r', hr'⟩ : ∃ r', s.known? q = some r' := by
    rw [known?, Env.found?_of_ownRecord? hown]
    cases s.cache.record? q with
    | none => exact ⟨r, rfl⟩
    | some r' => exact ⟨r', rfl⟩
  -- the question itself puts the record into the index
  have hindexed := (record?_hasAbility hown a).trans hr'
  have hstays := hafter.record?_executeAll hcs.cons hunreset hq hindexed
  have hsame : ((s.hasAbility (.named q) a).2.executeAll cs).2.known? q = s.known? q := by
    rw [known?, hstays, hr']
    rfl
  rw [hasAbility_fst, hasAbility_fst]
  exact congrArg (fun record => (record.elim ∅ Record.abilities).has b) hsame

/-! ## Abilities after edits -/

/-- After any history the abilities of a type are those that a new session on the same trees gives
it, if the session follows the trees under the names in the type. Under a foreign spelling of a
struct the answers stay, from the first time that it is asked for until the next reset, whatever
becomes of the trees. -/
theorem abilities_follow_trees (settings : Settings) (catalog : Catalog) :
    (∀ (cs : List Command) (trees : List Tree) (t : Ty),
      Program.empty.StaysOrderly catalog.aliases cs →
      trees.Perm ((start settings catalog).executeAll cs).2.program.trees →
      (∀ q ∈ t.names, ((start settings catalog).executeAll cs).2.Follows q) →
      (∀ a, (((start settings catalog).executeAll cs).2.hasAbility t a).1 =
        ((ofTrees settings catalog trees).hasAbility t a).1) ∧
      ∀ required, (((start settings catalog).executeAll cs).2.hasAbilities t required).1 =
        ((ofTrees settings catalog trees).hasAbilities t required).1) ∧
    ∀ (past later : List Command) (q : QName) (r : Record) (a : Ability),
      Program.empty.StaysOrderly catalog.aliases
        (past ++ .ask (.ability (.named q) a) :: later) →
      q.Foreign catalog.aliases →
      ((start settings catalog).executeAll past).2.env.ownRecord? q = some r →
      (((start settings catalog).executeAll past).2.hasAbility (.named q) a).2.Unreset later →
      ∀ b, (((start settings catalog).executeAll
          (past ++ .ask (.ability (.named q) a) :: later)).2.hasAbility (.named q) b).1 =
        (((start settings catalog).executeAll past).2.hasAbility (.named q) b).1 := by
  have hcatalog : ∀ cs, ((start settings catalog).executeAll cs).2.catalog = catalog := fun cs =>
    ((start settings catalog).frame_executeAll cs).2.1
  constructor
  · intro cs trees t hcs htrees ht
    have hstep := (inStep_start settings catalog).executeAll hcs
    have hnew := new_ofTrees_of_perm settings catalog htrees
    have henv : (ofTrees settings catalog trees).env =
        ((start settings catalog).executeAll cs).2.env := by
      rw [env, hnew.program, hnew.catalog, env, hcatalog]
    have habilities := hstep.abilities_eq ht hnew.pristine henv
    refine ⟨fun a => ?_, fun required => ?_⟩
    · rw [hasAbility_fst, hasAbility_fst, habilities]
    · rw [hasAbilities_fst, hasAbilities_fst, habilities]
  · intro past later q r a hcs hq hown hunreset b
    obtain ⟨hpast, hlater⟩ := hcs.append
    have hstep := (inStep_start settings catalog).executeAll hpast
    rw [executeAll_append]
    refine hstep.hasAbility_executeAll ?_ ((hcatalog past).symm ▸ hq) hown hunreset b
    rw [program_executeAll, hcatalog]
    exact hlater

/-- Whether a coin can be copied, under the address as it is written in the tree. -/
def copiesOwnCoin : Command := .ask (.ability (.named (.full "0x5" "m" "Coin")) .copy)

/-- Asks for a coin under two spellings and then changes its abilities. -/
def coinHistory : List Command :=
  [.set (coinTree ["copy"]), copiesOwnCoin, copiesCoin, .set (coinTree ["drop"])]

theorem staysOrderly_coinHistory :
    Program.empty.StaysOrderly Catalog.empty.aliases coinHistory := by
  have hinits : ∀ past ∈ coinHistory.inits,
      (past.foldl (fun p c => c.edit p) Program.empty).Orderly Catalog.empty.aliases := by
    decide +kernel
  exact fun past hpast => hinits past ((List.mem_inits ..).2 hpast)

theorem foreign_paddedCoin : (QName.full "0x05" "m" "Coin").Foreign Catalog.empty.aliases := by
  have hhex : canonicalHex? "0x05".toList = some "0x5".toList := by decide +kernel
  refine QName.foreign_of_padded (fun key hkey => ?_) hhex (by decide +kernel) _ _
  simp only [Catalog.empty, Aliases.standard, Aliases.get?, Aliases.insert, Aliases.empty,
    Table.get?_insert] at hkey
  split at hkey
  · exact absurd hkey (by decide)
  · split at hkey
    · exact absurd hkey (by decide)
    · cases hkey

theorem abilities_follow_trees_coin :
    (((start {} .empty).executeAll coinHistory).2.hasAbility
      (.named (.full "0x5" "m" "Coin")) .copy).1 = false ∧
    (((start {} .empty).executeAll coinHistory).2.hasAbility
      (.named (.full "0x05" "m" "Coin")) .copy).1 = true := by
  obtain ⟨hfollows, hstays⟩ := abilities_follow_trees {} .empty
  constructor
  · have htrees : ((start {} .empty).executeAll coinHistory).2.program.trees =
        [coinTree ["drop"]] := by
      rw [program_executeAll]
      rfl
    rw [(hfollows coinHistory [coinTree ["drop"]] _ staysOrderly_coinHistory
      (.of_eq htrees.symm) ?_).1]
    · decide +kernel
    · intro q hq
      obtain rfl : q = .full "0x5" "m" "Coin" := by simpa [Ty.names] using hq
      refine .inl (.inr ⟨"0x5", rfl, ?_⟩)
      rw [(frame_executeAll ..).2.1]
      decide +kernel
  · refine (hstays [.set (coinTree ["copy"]), copiesOwnCoin] [.set (coinTree ["drop"])] _
      ⟨.full "0x5" "m" "Coin", .ofKeywords ["copy"], [], [], false, []⟩ .copy
      staysOrderly_coinHistory foreign_paddedCoin (by decide +kernel)
      ⟨fun hreset => ?_, trivial⟩ .copy).trans (by decide +kernel)
    have hlive : (((start {} .empty).executeAll [.set (coinTree ["copy"]), copiesOwnCoin]).2.execute
        copiesCoin).2.program.tree? 0 = some (coinTree ["copy"]) := by
      rw [program_execute, program_executeAll]
      rfl
    exact absurd (hreset _ hlive) (by decide +kernel)

/-- The abilities of a coin are changed, or its file is removed. Either is missed under a spelling
by which the coin was asked for before. -/
theorem missed_under_spelling :
    Program.empty.StaysOrderly Catalog.empty.aliases coinHistory ∧
    (((start {} .empty).executeAll coinHistory).2.hasAbility
      (.named (.full "0x05" "m" "Coin")) .copy).1 = true ∧
    ((ofTrees {} .empty [coinTree ["drop"]]).hasAbility
      (.named (.full "0x05" "m" "Coin")) .copy).1 = false ∧
    (((start {} .empty).executeAll [.set (coinTree ["copy"]),
      .ask (.ability (.named (.inModule "m" "Coin")) .copy), .remove 0]).2.hasAbility
        (.named (.inModule "m" "Coin")) .copy).1 = true ∧
    ((ofTrees {} .empty []).hasAbility (.named (.inModule "m" "Coin")) .copy).1 = false := by
  exact ⟨staysOrderly_coinHistory, by decide +kernel, by decide +kernel, by decide +kernel,
    by decide +kernel⟩

end Session

end MoveTyping
