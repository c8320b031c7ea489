import MoveTyping.Proofs.Session.Edits

/-!
# Removal

After the removal of a file a session answers like a new session on the trees that are left, as long
as the rest of the program is detached from the file. Three things tie the rest to a file without a
trace in the cache: names that are qualified by a module of the file, fields with types of the file,
and records of the file that are reached through a field.

## Main definitions

* `Program.OwnNames` — the names of the modules of a file are not shared with other files.
* `Env.KeepsNames`, `Env.Detached` — what the removal of a file may not change.
-/

namespace MoveTyping

/-! ## Programs without a file -/

namespace Program

variable {p : Program} {f : FileId} {t : Tree}

/-- The nodes of all trees. -/
def ids (p : Program) : List NodeId := p.trees.flatMap (·.ids)

theorem mem_ids_of_kind? {n : NodeId} {kind : NodeKind} (h : p.kind? n = some kind) :
    n ∈ p.ids := by
  obtain ⟨t, ht, hk⟩ := kind?_eq_some h
  exact List.mem_flatMap.2 ⟨t, List.mem_of_find?_eq_some ht, Arena.mem_ids_of_kind? hk⟩

theorem mem_trees_of_erase (h : t ∈ (p.erase f).trees) : t ∈ p.trees := List.mem_of_mem_filter h

theorem tree?_of_erase {g : FileId} (h : (p.erase f).tree? g = some t) : p.tree? g = some t := by
  rw [tree?_erase] at h
  split at h
  · cases h
  · exact h

theorem modules_erase (p : Program) (f : FileId) :
    (p.erase f).modules = p.modules.filter (·.file ≠ f) := by
  simp only [modules, erase]
  induction p.trees with
  | nil => rfl
  | cons t trees ih =>
    have hmodules : t.modules.filter (·.file ≠ f) = if t.file ≠ f then t.modules else [] := by
      have hfilter : t.modules.filter (·.file ≠ f) = t.modules.filter fun _ => t.file ≠ f :=
        List.filter_congr fun m hm => by rw [Tree.file_of_mem_modules hm]
      rw [hfilter]
      split <;> simp_all
    rw [List.flatMap_cons, List.filter_append, ← ih, hmodules, List.filter_cons]
    split <;> simp_all

/-- No other file has a module with the name of a module of this file. -/
def OwnNames (f : FileId) (p : Program) : Prop :=
  ∀ m ∈ p.modules, ∀ m' ∈ p.modules, m.file = f →
    (p.identity? m').map Prod.snd = (p.identity? m).map Prod.snd → m'.file = f

instance (f : FileId) (p : Program) : Decidable (p.OwnNames f) := by
  unfold OwnNames
  infer_instance

/-- Without the file its modules are not found, and other modules are found as before. -/
theorem OwnNames.findModule?_erase (h : p.OwnNames f) (aliases : Aliases)
    (address : Option String) (module : String) :
    (∃ m, p.findModule? aliases address module = some m ∧ m.file = f ∧
      (p.erase f).findModule? aliases address module = none) ∨
    ((p.erase f).findModule? aliases address module = p.findModule? aliases address module ∧
      ∀ m, p.findModule? aliases address module = some m → m.file ≠ f) := by
  obtain ⟨found, hfound, herase, hname⟩ : ∃ found : NodeId → Bool,
      p.findModule? aliases address module = p.modules.find? found ∧
      (p.erase f).findModule? aliases address module =
        p.modules.find? (fun m => m.file ≠ f && found m) ∧
      ∀ m, found m = true → (p.identity? m).map Prod.snd = some module := by
    refine ⟨_, rfl, ?_, fun m hm => ?_⟩
    · rw [findModule?, modules_erase, List.find?_filter]
      refine congrArg (List.find? · _) (funext fun m => ?_)
      by_cases hm : m.file = f
      · simp [hm]
      · rw [(p.differsAt_erase f).identity? hm, Bool.decide_and, Bool.decide_eq_true,
          Bool.decide_eq_true]
    · simp only [Option.any_eq_true, Bool.and_eq_true, decide_eq_true_eq] at hm
      obtain ⟨key, hkey, hname, -⟩ := hm
      rw [hkey, Option.map_some, hname]
  rw [hfound, herase]
  cases hfind : p.modules.find? found with
  | none =>
    refine .inr ⟨?_, by simp⟩
    rw [List.find?_eq_none] at hfind ⊢
    exact fun m hm hboth => hfind m hm (Bool.and_eq_true_iff.1 hboth).2
  | some m =>
    have hm := List.find?_some hfind
    by_cases hfile : m.file = f
    · refine .inl ⟨m, rfl, hfile, List.find?_eq_none.2 fun m' hm' hboth => ?_⟩
      obtain ⟨hout, hm''⟩ := Bool.and_eq_true_iff.1 hboth
      refine of_decide_eq_true hout (h m (List.mem_of_find?_eq_some hfind) m' hm' hfile ?_)
      rw [hname m hm, hname m' hm'']
    · refine .inr ⟨?_, fun _ h => Option.some.inj h ▸ hfile⟩
      obtain ⟨-, front, back, hsplit, hfront⟩ := List.find?_eq_some_iff_append.1 hfind
      refine List.find?_eq_some_iff_append.2 ⟨?_, front, back, hsplit, fun m' hm' => ?_⟩
      · rw [hm, decide_eq_true hfile]
        rfl
      · rw [Bool.not_and, hfront m' hm', Bool.or_true]

end Program

/-! ## Detached files -/

namespace Env

variable {p : Program} {catalog : Catalog} {f : FileId} {t : Tree} {env env' : Env}

/-- The references of other files that do not resolve into the file resolve the same, and have the
same full names. -/
def KeepsNames (f : FileId) (env env' : Env) : Prop :=
  ∀ r ∈ env.program.ids, r.file ≠ f →
    (env.resolver.resolve r).map NodeId.file = some f ∨
      (env'.resolver.resolve r = env.resolver.resolve r ∧
        env'.resolver.canonical r = env.resolver.canonical r)

instance (f : FileId) (env env' : Env) : Decidable (KeepsNames f env env') := by
  unfold KeepsNames
  infer_instance

/-- The rest of the program is detached from a file if it stays the same without the file: names that
do not resolve into the file mean the same, the structs of other files have the same records, and
whoever asks for a record of the file reads the file. -/
structure Detached (f : FileId) (env env' : Env) : Prop where
  names : KeepsNames f env env'
  structs : ∀ d ∈ env.program.ids, d.file ≠ f → env'.structRecord? d = env.structRecord? d
  reported : Reported f env env'

theorem differsAt_erase (hclosed : p.Closed) (catalog : Catalog) (f : FileId) :
    DiffersAt f (ofProgram p catalog) (ofProgram (p.erase f) catalog) :=
  ⟨rfl, p.differsAt_erase f, hclosed⟩

theorem structRecord?_erase
    (hstructs : ∀ d ∈ p.ids, d.file ≠ f → (ofProgram (p.erase f) catalog).structRecord? d =
      (ofProgram p catalog).structRecord? d) (d : NodeId) (hd : d.file ≠ f) :
    (ofProgram (p.erase f) catalog).structRecord? d = (ofProgram p catalog).structRecord? d := by
  cases hk : p.kind? d with
  | some kind => exact hstructs d (Program.mem_ids_of_kind? hk) hd
  | none =>
    have hnone : ∀ {p : Program}, p.kind? d = none →
        (ofProgram p catalog).structRecord? d = none := by
      intro p hk
      rw [structRecord?, show (ofProgram p catalog).program.kind? d = none from hk]
    exact (hnone (((p.differsAt_erase f).kind? hd).trans hk)).trans (hnone hk).symm

theorem Detached.edited (hclosed : p.Closed)
    (h : Detached f (ofProgram p catalog) (ofProgram (p.erase f) catalog)) :
    Edited f (ofProgram p catalog) (ofProgram (p.erase f) catalog) where
  toDiffersAt := differsAt_erase hclosed catalog f
  foreign hr hd hfile := foreign_ofProgram hd (hfile ▸ hr.symm)
  names {r} hr := by
    cases hk : p.kind? r with
    | some kind =>
      refine (h.names r (Program.mem_ids_of_kind? hk) hr).imp_left fun hfile => ?_
      exact Option.map_eq_some_iff.1 hfile
    | none =>
      -- what is not a node refers to nothing
      have hk' : (p.erase f).kind? r = none := ((p.differsAt_erase f).kind? hr).trans hk
      have hnone : ∀ {p : Program}, p.kind? r = none →
          (ofProgram p catalog).resolver.resolve r = none ∧
            (ofProgram p catalog).resolver.canonical r = none := by
        intro p hk
        have href : (⟨p, catalog.aliases⟩ : Scope).reference? r = none := by
          simp [Scope.reference?, hk]
        simp [ofProgram, Resolver.ofScope, Scope.resolve?, Scope.canonicalPath?, href]
      rw [(hnone hk).1, (hnone hk).2, (hnone hk').1, (hnone hk').2]
      exact .inr ⟨rfl, rfl⟩
  structs {d} hd := structRecord?_erase h.structs d hd

/-- A file without structs whose modules have names of their own takes no record with it. -/
theorem record?_erase (hclosed : p.Closed) (ht : p.tree? f = some t) (hvalues : t.ValuesOnly)
    (hown : p.OwnNames f)
    (hstructs : ∀ d, d.file ≠ f → (ofProgram (p.erase f) catalog).structRecord? d =
      (ofProgram p catalog).structRecord? d) (q : QName) :
    (ofProgram (p.erase f) catalog).record? q = (ofProgram p catalog).record? q := by
  have hdiffers := differsAt_erase hclosed catalog f
  refine record?_congr hstructs ?_ fun module => ?_
  · have hfiles : (ofProgram (p.erase f) catalog).program.files = p.files.filter (· ≠ f) :=
      p.files_erase f
    have hnil : (ofProgram p catalog).declaredRecords f = [] :=
      declaredRecords_of_valuesOnly hclosed ht hvalues
    rw [declared?, declared?, hfiles]
    refine congrArg (Record.lastNamed · q) ?_
    change _ = p.files.flatMap _
    induction p.files with
    | nil => rfl
    | cons g files ih =>
      rw [List.filter_cons, List.flatMap_cons, ← ih]
      split
      · next hg => rw [List.flatMap_cons, hdiffers.declaredRecords hstructs (by simpa using hg)]
      · next hg =>
        obtain rfl : g = f := by simpa using hg
        rw [hnil, List.nil_append]
  · have hout : ∀ d, (⟨p, catalog.aliases⟩ : Scope).member? q.address module q.name .type =
        some d → d.file ≠ f := fun d hd => Scope.file_ne_of_valuesOnly ht hclosed hvalues hd
    refine ⟨?_, hout⟩
    rcases hown.findModule?_erase catalog.aliases q.address module with
      ⟨m, hm, hfile, hnone⟩ | ⟨hsame, houtside⟩
    · have hmember : (⟨p, catalog.aliases⟩ : Scope).member? q.address module q.name .type =
          none := by
        refine Option.eq_none_iff_forall_ne_some.2 fun d hd => hout d hd ?_
        simp only [Scope.member?, Scope.findModule?, hm, Option.bind_some] at hd
        exact (hclosed.item (List.mem_of_find?_eq_some hd)).trans hfile
      rw [hmember]
      simp only [Scope.member?, Scope.findModule?, hnone, Option.bind_none]
    · simp only [Scope.member?, Scope.findModule?, hsame]
      cases hm : p.findModule? catalog.aliases q.address module with
      | none => rfl
      | some m => exact Scope.item?_eq (p.differsAt_erase f) hclosed (houtside m hm)

/-- The rest of the program is detached from a file without structs if the names of its modules are
not shared, and if names of other files that do not resolve into it mean the same without it. -/
theorem detached_of_valuesOnly (hclosed : p.Closed) (ht : p.tree? f = some t)
    (hvalues : t.ValuesOnly) (hown : p.OwnNames f)
    (hnames : KeepsNames f (ofProgram p catalog) (ofProgram (p.erase f) catalog)) :
    Detached f (ofProgram p catalog) (ofProgram (p.erase f) catalog) := by
  have hdiffers := differsAt_erase hclosed catalog f
  have hnamed : ∀ {n path slice args}, n.file ≠ f → p.kind? n = some (.typePath path slice) →
      (ofProgram (p.erase f) catalog).namedType n args = (ofProgram p catalog).namedType n args := by
    intro n path slice args hn hk
    have hout : ∀ d, (ofProgram p catalog).resolver.resolve n = some d → d.file ≠ f :=
      fun d hd => Scope.resolve?_of_valuesOnly ht hclosed hvalues hk hn hd
    rcases hnames n (Program.mem_ids_of_kind? hk) hn with hfile | ⟨hresolve, hcanonical⟩
    · obtain ⟨d, hd, hfile⟩ := Option.map_eq_some_iff.1 hfile
      exact absurd hfile (hout d hd)
    · exact hdiffers.namedType_of_resolve hresolve hcanonical hout args
  have hstructs : ∀ d, d.file ≠ f → (ofProgram (p.erase f) catalog).structRecord? d =
      (ofProgram p catalog).structRecord? d := by
    intro d hd
    refine hdiffers.structRecord? (fun hty => congrArg Prod.fst ?_) hd
    exact hdiffers.denoteWithin True (fun hn hk _ => hnamed hn hk) _ hty (.inl trivial)
  exact ⟨hnames, fun d _ => hstructs d, fun q hq =>
    absurd (record?_erase hclosed ht hvalues hown hstructs q) hq⟩

end Env

/-! ## Sessions -/

namespace Session

variable {settings : Settings} {catalog : Catalog} {s : Session} {f : FileId} {n : NodeId}
  {x : Cached}

theorem Coherent.removeFile (h : s.Coherent) (hf : f ∈ s.files)
    (hdetached : Env.Detached f s.env (.ofProgram (s.program.erase f) s.catalog)) :
    (s.removeFile f).2.Coherent := by
  have henv := env_removeFile hf
  have hedited : Env.Edited f s.env (s.removeFile f).2.env := by
    rw [henv]
    exact hdetached.edited fun t ht => (h.wellFormed t ht).closed
  have hrevised := revised_removeFile h.consistent.timed h.indexed hf
  refine hrevised.coherent h ?_ ?_ hedited (henv ▸ hdetached.reported)
  · rw [program_removeFile hf]
    exact fun t ht => h.wellFormed t (Program.mem_trees_of_erase ht)
  · rw [program_removeFile hf, (reindexed_removeFile hf).catalog]
    exact h.distinct.mono fun g t => Program.tree?_of_erase

/-- A type that is served without the file is the answer after the removal of the file. -/
theorem New.infer_removeFile {p : Program} {s₀ : Session} (h : New settings catalog p s₀)
    (hcuts : (s₀.infer n).2.cuts = s₀.cuts) (hf : f ∈ s₀.files)
    (hx : (s₀.infer n).2.cache.served? n = some x) (hn : f ≠ n.file) (hdeps : f ∉ x.deps) :
    (((s₀.infer n).2.removeFile f).2.infer n).1 = some x.ty := by
  obtain ⟨hcontains, hlimit⟩ := h.answers_served hcuts hx
  have hf : f ∈ (s₀.infer n).2.files := hf
  have hs := reindexed_removeFile hf
  have hserved : ((s₀.infer n).2.removeFile f).2.cache.served? n = some x := by
    rw [hs.served?]
    exact ((s₀.infer n).2.cache.served?_retire f n).trans
      (Cache.served?_invalidate hx hn hdeps (h.not_mem_dependents hcuts hx hn hdeps))
  refine infer_of_served ?_ ?_ hserved
  · rw [program_removeFile hf, (Program.differsAt_erase _ f).contains hn.symm]
    exact hcontains
  · rw [hs.settings]
    exact hlimit

/-! ## Coherence under removal -/

/-- After any allowed history in which nothing is cut off, a live file can be removed from which the
rest of the program is detached: the answers to a query are then those of a new session on the trees
that are left. Detachment cannot be left out: a type that a new session serves without the file is
its answer after the removal too, whatever is left. -/
theorem answer_after_removal (settings : Settings) (catalog : Catalog) :
    (∀ (events : List Event) (f : FileId) (trees : List Tree) (q : Query),
      (start settings catalog).AllowsAll events →
      f ∈ ((start settings catalog).after events).files →
      Env.Detached f ((start settings catalog).after events).env
        (.ofProgram (((start settings catalog).after events).program.erase f) catalog) →
      trees.Perm (((start settings catalog).after events).program.erase f).trees →
      ((((start settings catalog).after events).removeFile f).2.answer q).2.Clean →
      (∀ n ∈ q.nodes, ((ofTrees settings catalog trees).infer n).2.Clean) →
      (((start settings catalog).after events).removeFile f).1 = true ∧
      ((((start settings catalog).after events).removeFile f).2.answer q).1 =
        q.nodes.map fun n => ((ofTrees settings catalog trees).infer n).1) ∧
    ∀ (trees : List Tree) (f : FileId) (n : NodeId) (x : Cached),
      (trees.map (·.file)).Nodup →
      ((ofTrees settings catalog trees).infer n).2.Clean →
      f ∈ (ofTrees settings catalog trees).files →
      ((ofTrees settings catalog trees).infer n).2.cache.served? n = some x →
      f ≠ n.file → f ∉ x.deps →
      ((((ofTrees settings catalog trees).infer n).2.removeFile f).2.infer n).1 = some x.ty := by
  constructor
  · intro events f trees q hallowed hf hdetached htrees hclean hfresh
    have hs := reindexed_removeFile hf
    have hstart : (start settings catalog).cuts = 0 := rfl
    have hle := (start settings catalog).cuts_le_after events
    have hremoved : (((start settings catalog).after events).removeFile f).2.cuts =
        ((start settings catalog).after events).cuts := by
      rw [cuts, hs.counters, cuts]
    have hlast := (((start settings catalog).after events).removeFile f).2.cuts_le_answer q
    rw [clean_iff] at hclean
    have hcatalog : ((start settings catalog).after events).catalog = catalog :=
      (start settings catalog).catalog_after events
    have hcoherent := (coherent_start settings catalog).after hallowed (by omega)
    have hafter := hcoherent.removeFile hf (hcatalog.symm ▸ hdetached)
    have hnew : New settings (((start settings catalog).after events).removeFile f).2.catalog
        (((start settings catalog).after events).removeFile f).2.program
        (ofTrees settings catalog trees) := by
      rw [program_removeFile hf, hs.catalog, hcatalog]
      exact new_ofTrees_of_perm settings catalog htrees
    refine ⟨by rw [removeFile_eq hf], hafter.answer_eq (by omega) hnew hfresh⟩
  · intro trees f n x hfiles hclean hf hx hn hdeps
    have hnew := new_ofTrees settings catalog hfiles
    exact hnew.infer_removeFile (hnew.cuts_infer hclean) hf hx hn hdeps

/-- The trees of `openTrees` without the rates. -/
def keptTrees : List Tree := [shapesTree, innerTree "u64", userTree, shopTree]

theorem detached_rates :
    Env.Detached 3 (.ofProgram ((openTrees "u64").foldl Program.insert .empty) .empty)
      (.ofProgram (((openTrees "u64").foldl Program.insert .empty).erase 3) .empty) :=
  have hwf : ∀ t ∈ ((openTrees "u64").foldl Program.insert .empty).trees, t.WellFormed := by
    decide +kernel
  @Env.detached_of_valuesOnly _ .empty 3 (ratesTree "u64") (fun t ht => (hwf t ht).closed) rfl
    (by decide +kernel) (by decide +kernel) (by decide +kernel)

theorem program_after_asked :
    ((start {} .empty).after ((openTrees "u64").map .set ++ [.ask ratesQuery])).program =
      (openTrees "u64").foldl Program.insert .empty := by
  have hafter : (start {} .empty).after ((openTrees "u64").map .set ++ [.ask ratesQuery]) =
      ((start {} .empty).after ((openTrees "u64").map .set)).step (.ask ratesQuery) := by
    simp only [after, List.foldl_append, List.foldl_cons, List.foldl_nil]
  rw [hafter, program_before_ratesEdit]

theorem answer_after_removal_rates :
    ((((start {} .empty).after ((openTrees "u64").map .set ++ [.ask ratesQuery])).removeFile
      3).2.answer ratesQuery).1 = [some (.prim .u64), some .unknown] ∧
    ((((ofTrees {} .empty (openTrees "u64")).infer ⟨2, 4⟩).2.removeFile 1).2.infer ⟨2, 4⟩).1 =
      some (.prim .u64) := by
  obtain ⟨hanswers, hretained⟩ := answer_after_removal {} .empty
  constructor
  · have hallowed : (start {} .empty).AllowsAll
        ((openTrees "u64").map .set ++ [.ask ratesQuery]) :=
      allowsAll_append.2 ⟨allowsAll_openTrees, trivial, trivial⟩
    rw [(hanswers _ 3 keptTrees ratesQuery hallowed ?_ ?_ ?_ (clean_iff.2 (by decide +kernel))
      ?_).2]
    · decide +kernel
    · rw [files, program_after_asked]
      decide +kernel
    · rw [env, program_after_asked, catalog_after]
      exact detached_rates
    · rw [program_after_asked]
      exact .of_eq rfl
    · simp only [ratesQuery, Query.nodes, List.forall_mem_cons]
      exact ⟨clean_iff.2 (by decide +kernel), clean_iff.2 (by decide +kernel), by simp⟩
  · exact hretained (openTrees "u64") 1 ⟨2, 4⟩ ⟨.prim .u64, [0]⟩ (by decide +kernel)
      (clean_iff.2 (by decide +kernel)) (by decide +kernel) (by decide +kernel) (by decide)
      (by decide)

/-- The file of `T` is removed after `x.f.g` is asked for. Nothing is cut off, but the type of
`x.f.g` was recorded with the file of `S` only, and it stays. -/
theorem field_of_removed_struct_stale :
    (∀ t ∈ [shapesTree, innerTree "u64", userTree], t.WellFormed) ∧
    (ofTrees {} .empty [shapesTree, innerTree "u64", userTree]).program.DistinctModules
      Catalog.empty.aliases ∧
    ((((start {} .empty).after [.set shapesTree, .set (innerTree "u64"), .set userTree,
      .ask (.one ⟨2, 4⟩)]).removeFile 1).2.answer (.one ⟨2, 4⟩)).1 = [some (.prim .u64)] ∧
    ((((start {} .empty).after [.set shapesTree, .set (innerTree "u64"), .set userTree,
      .ask (.one ⟨2, 4⟩)]).removeFile 1).2.answer (.one ⟨2, 4⟩)).2.Clean ∧
    ((ofTrees {} .empty [shapesTree, userTree]).infer ⟨2, 4⟩).1 = some .unknown ∧
    ((ofTrees {} .empty [shapesTree, userTree]).infer ⟨2, 4⟩).2.Clean :=
  ⟨by decide +kernel, by decide +kernel, by decide +kernel, clean_iff.2 (by decide +kernel),
    by decide +kernel, clean_iff.2 (by decide +kernel)⟩

end Session

end MoveTyping
