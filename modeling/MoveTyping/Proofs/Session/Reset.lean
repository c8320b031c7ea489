import MoveTyping.Tree.Build
import MoveTyping.Proofs.Infer.Twin
import MoveTyping.Proofs.Session.Commands

/-!
# Resets

A reset forgets the past. Whatever was done before, the session replies from then on to every
command as a new session would that holds the same trees.

Two sessions in step differ in nothing that a command can see: they hold the same trees, their
caches remember the same, and their indices have the same records. Every command keeps two sessions
in step and gets the same reply from both, and a reset brings a session in step with a new one.

## Main definitions

* `Session.Twin` — two sessions in step.
* `Session.Resets` — the commands that reset a session.
-/

namespace MoveTyping.Session

variable {α : Type} {s s' : Session} {f : FileId}

/-- Two sessions in step. -/
structure Twin (s s' : Session) : Prop where
  settings : s'.settings = s.settings
  catalog : s'.catalog = s.catalog
  program : s'.program = s.program
  cache : Cache.Twin s.files s.cache s'.cache
  indexed : ∀ f ∈ s.files, s'.indexed.get? f = s.indexed.get? f

/-- A session is in step with itself if its cache holds nothing stale. -/
theorem Twin.refl (h : s.cache.Ready s.files) : Twin s s := ⟨rfl, rfl, rfl, .refl h, fun _ _ => rfl⟩

theorem twin_start (settings : Settings) (catalog : Catalog) :
    Twin (start settings catalog) (start settings catalog) := by
  refine .refl ⟨.of_entries_eq_empty (.ofSettings _) rfl, ?_⟩
  rintro f ⟨⟩

namespace Twin

theorem env (h : Twin s s') : s'.env = s.env := by
  simp only [Session.env, h.program, h.catalog]

theorem files (h : Twin s s') : s'.files = s.files := by
  simp only [Session.files, h.program]

theorem inference (h : Twin s s') : s'.inference = s.inference.since s'.cache.generation := by
  simp only [Session.inference, Inference.since, h.env, h.settings]

/-! ## Questions -/

/-- The states that engines of both sessions begin with. -/
theorem shared (h : Twin s s') :
    s.inference.Twins s'.cache.generation { cache := s.cache } { cache := s'.cache } :=
  ⟨h.cache, rfl, rfl⟩

theorem absorb (h : Twin s s') {left left' : Shared}
    (hleft : s.inference.Twins s'.cache.generation left left') :
    Twin (s.absorb left) (s'.absorb left') :=
  ⟨h.settings, h.catalog, h.program, hleft.cache, h.indexed⟩

theorem perform (h : Twin s s') (rule : Rule α) :
    (s'.perform rule).1 = (s.perform rule).1 ∧ Twin (s.perform rule).2 (s'.perform rule).2 := by
  have hrun := (s.inference.inStep_task s'.cache.generation rule).run h.shared
  rw [← h.inference, Inference.run_task, Inference.run_task] at hrun
  exact ⟨hrun.1, h.absorb hrun.2⟩

theorem inferBatch (h : Twin s s') (nodes : List NodeId) (schedule : List Nat) :
    (s'.inferBatch nodes schedule).1 = (s.inferBatch nodes schedule).1 ∧
      Twin (s.inferBatch nodes schedule).2 (s'.inferBatch nodes schedule).2 := by
  have htasks : List.Forall₂ (Task.InStep (s.inference.Twins s'.cache.generation))
      ((filesOf nodes).map (s.groupTask nodes)) ((filesOf nodes).map (s'.groupTask nodes)) := by
    refine List.forall₂_map_left_iff.2 (List.forall₂_map_right_iff.2
      (List.forall₂_same.2 fun f _ => ?_))
    rw [groupTask, groupTask, h.inference]
    exact s.inference.inStep_task s'.cache.generation _
  obtain ⟨hanswers, hleft⟩ : (s'.runGroups nodes schedule).1 = (s.runGroups nodes schedule).1 ∧
      s.inference.Twins s'.cache.generation (s.runGroups nodes schedule).2
        (s'.runGroups nodes schedule).2 := by
    simp only [runGroups, List.length_map, h.settings]
    exact Pool.run_inStep htasks h.shared _
  refine ⟨?_, h.absorb hleft⟩
  simp only [Session.inferBatch, hanswers]

theorem answer (h : Twin s s') (q : Query) :
    (s'.answer q).1 = (s.answer q).1 ∧ Twin (s.answer q).2 (s'.answer q).2 := by
  cases q with
  | one n =>
    obtain ⟨hanswer, h⟩ := h.perform (.typeOf? n)
    exact ⟨congrArg (fun t => [t]) hanswer, h⟩
  | batch nodes schedule => exact h.inferBatch nodes schedule

theorem inferFile (h : Twin s s') (f : FileId) :
    (s'.inferFile f).1 = (s.inferFile f).1 ∧ Twin (s.inferFile f).2 (s'.inferFile f).2 := by
  simp only [Session.inferFile, h.program]
  obtain ⟨hanswers, h⟩ := h.perform (labelledRule _)
  exact ⟨congrArg (List.filterMap _) hanswers, h⟩

theorem serve (h : Twin s s') (request : Request) :
    (s'.serve request).1 = (s.serve request).1 ∧
      Twin (s.serve request).2 (s'.serve request).2 := by
  cases request with
  | types q => exact (h.answer q).imp_left (congrArg Reply.types)
  | fileTypes f => exact (h.inferFile f).imp_left (congrArg Reply.fileTypes)
  | ability t a => exact (h.perform (.hasAbility t a)).imp_left (congrArg Reply.verdict)
  | abilities t required =>
    exact (h.perform (.hasAbilities t required)).imp_left (congrArg Reply.verdict)
  | bounds call =>
    simp only [Session.serve, checkCall, h.env]
    exact (h.perform (s.env.boundsRule call)).imp_left (congrArg Reply.violations)

/-! ## Edits -/

theorem reindex (h : Twin s s') (hf : f ∈ s.files) : Twin (s.reindex f) (s'.reindex f) := by
  have hs := reindexed_reindex s f
  have hs' := reindexed_reindex s' f
  have hrecords : ∀ q, (s'.reindex f).cache.record? q = (s.reindex f).cache.record? q := by
    intro q
    rw [record?_reindex, record?_reindex, h.env, h.indexed f hf, h.cache.records]
  refine ⟨h.settings, h.catalog, h.program, ?_, fun g hg => ?_⟩
  · obtain ⟨index, hc⟩ := hs.cache
    obtain ⟨index', hc'⟩ := hs'.cache
    rw [hc, hc'] at hrecords ⊢
    exact h.cache.relabel hrecords _ _
  · rw [indexed_reindex, indexed_reindex, Table.get?_insert, Table.get?_insert, h.env]
    exact ite_congr rfl (fun _ => rfl) fun _ => h.indexed g hg

theorem foldl_reindex (h : Twin s s') {files : List FileId} (hfiles : ∀ f ∈ files, f ∈ s.files) :
    Twin (files.foldl Session.reindex s) (files.foldl Session.reindex s') := by
  induction files generalizing s s' with
  | nil => exact h
  | cons f files ih =>
    have hs := reindexed_reindex s f
    refine ih (h.reindex (hfiles f List.mem_cons_self)) fun g hg => ?_
    rw [hs.files]
    exact hfiles g (List.mem_cons_of_mem _ hg)

/-- A reload does not depend on what the sessions believed to be indexed. -/
theorem reload_of_cache (hsettings : s'.settings = s.settings) (hcatalog : s'.catalog = s.catalog)
    (hprogram : s'.program = s.program) (hcache : Cache.Twin s.files s.cache s'.cache) :
    Twin s.reload s'.reload := by
  have h : Twin { s with cache := s.cache.clear, indexed := ∅ }
      { s' with cache := s'.cache.clear, indexed := ∅ } :=
    ⟨hsettings, hcatalog, hprogram, hcache.clear, fun _ _ => rfl⟩
  have hfiles : s'.files = s.files := by simp only [Session.files, hprogram]
  change Twin (s.files.foldl Session.reindex _) (s'.files.foldl Session.reindex _)
  rw [hfiles]
  exact h.foldl_reindex fun _ hf => hf

theorem reload (h : Twin s s') : Twin s.reload s'.reload :=
  reload_of_cache h.settings h.catalog h.program h.cache

theorem setFile (h : Twin s s') (t : Tree) : Twin (s.setFile t) (s'.setFile t) := by
  have hprogram : s'.program.insert t = s.program.insert t := by rw [h.program]
  cases ht : s.program.tree? t.file with
  | none =>
    rw [setFile_of_new ht, setFile_of_new (h.program ▸ ht)]
    refine reload_of_cache h.settings h.catalog hprogram (h.cache.revive fun g hg => ?_)
    exact (Program.mem_files_insert.1 hg).symm
  | some old =>
    -- the file is live already, so the live files are the same
    have hlive : ∀ g ∈ (s.program.insert t).files, g ∈ s.files := by
      intro g hg
      rcases Program.mem_files_insert.1 hg with rfl | hg
      · exact Program.mem_files.2 ⟨old, ht⟩
      · exact hg
    by_cases hitems : old.sameItems t = true
    · rw [setFile_of_sameItems ht hitems, setFile_of_sameItems (h.program ▸ ht) hitems]
      refine Twin.reindex ⟨h.settings, h.catalog, hprogram, ?_, ?_⟩ ?_
      · exact (h.cache.invalidate t.file).mono hlive
      · exact fun g hg => h.indexed g (hlive g hg)
      · exact Program.mem_files_insert.2 (.inl rfl)
    · rw [setFile_of_changedItems ht hitems, setFile_of_changedItems (h.program ▸ ht) hitems]
      exact reload_of_cache h.settings h.catalog hprogram (h.cache.mono hlive)

theorem removeFile (h : Twin s s') (f : FileId) :
    (s'.removeFile f).1 = (s.removeFile f).1 ∧ Twin (s.removeFile f).2 (s'.removeFile f).2 := by
  by_cases hf : f ∈ s.files
  · have hf' : f ∈ s'.files := h.files.symm ▸ hf
    have hprogram := program_removeFile hf
    have hfiles : ∀ g ∈ (s.removeFile f).2.files, g ∈ s.files ∧ g ≠ f := by
      intro g hg
      rw [Session.files, hprogram, Program.files_erase] at hg
      obtain ⟨hg, hne⟩ := List.mem_filter.1 hg
      exact ⟨hg, by simpa using hne⟩
    have hrecords : ∀ q,
        (s'.removeFile f).2.cache.record? q = (s.removeFile f).2.cache.record? q := by
      intro q
      rw [removeFile_eq hf, removeFile_eq hf', Cache.record?_foldl_unindex,
        Cache.record?_foldl_unindex, h.indexed f hf]
      exact ite_congr rfl (fun _ => rfl) fun _ => h.cache.records q
    have hs := reindexed_removeFile hf
    have hs' := reindexed_removeFile hf'
    refine ⟨by rw [removeFile_eq hf, removeFile_eq hf'], ?_⟩
    refine ⟨?_, ?_, ?_, ?_, fun g hg => ?_⟩
    · rw [hs.settings, hs'.settings, h.settings]
    · rw [hs.catalog, hs'.catalog, h.catalog]
    · rw [hprogram, program_removeFile hf', h.program]
    · obtain ⟨index, hc⟩ := hs.cache
      obtain ⟨index', hc'⟩ := hs'.cache
      rw [hc, hc'] at hrecords ⊢
      exact (h.cache.retire hfiles).relabel hrecords _ _
    · rw [removeFile_eq hf, removeFile_eq hf']
      obtain ⟨hg, hne⟩ := hfiles g hg
      simp only [Table.get?_erase, if_neg hne]
      exact h.indexed g hg
  · have hf' : f ∉ s'.files := h.files.symm ▸ hf
    rw [removeFile_of_notMem hf, removeFile_of_notMem hf']
    exact ⟨rfl, h⟩

/-! ## Histories -/

/-- A command gets the same reply from two sessions in step, and keeps them in step. -/
theorem execute (h : Twin s s') (c : Command) :
    (s'.execute c).1 = (s.execute c).1 ∧ Twin (s.execute c).2 (s'.execute c).2 := by
  cases c with
  | set t => exact ⟨rfl, h.setFile t⟩
  | remove f => exact (h.removeFile f).imp_left (congrArg Reply.verdict)
  | reload => exact ⟨rfl, h.reload⟩
  | sweep =>
    exact ⟨congrArg Reply.dropped h.cache.sweep_fst, h.settings, h.catalog, h.program,
      h.cache.sweep, h.indexed⟩
  | ask request => exact h.serve request

theorem executeAll (h : Twin s s') (cs : List Command) :
    (s'.executeAll cs).1 = (s.executeAll cs).1 ∧
      Twin (s.executeAll cs).2 (s'.executeAll cs).2 := by
  induction cs generalizing s s' with
  | nil => exact ⟨rfl, h⟩
  | cons c cs ih =>
    obtain ⟨hreply, h⟩ := h.execute c
    obtain ⟨hreplies, h⟩ := ih h
    exact ⟨congrArg₂ List.cons hreply hreplies, h⟩

/-- Sessions that were just reset are in step if they hold the same trees. -/
theorem of_pristine (h : s.Pristine) (h' : s'.Pristine) (hready : s.cache.Ready s.files)
    (hready' : s'.cache.Ready s'.files) (hsettings : s'.settings = s.settings)
    (hcache : s'.cache.settings = s.cache.settings) (hcatalog : s'.catalog = s.catalog)
    (hprogram : s'.program = s.program) : Twin s s' := by
  have hfiles : s'.files = s.files := by simp only [Session.files, hprogram]
  have henv : s'.env = s.env := by simp only [Session.env, hprogram, hcatalog]
  refine ⟨hsettings, hcatalog, hprogram, ⟨hready, hfiles ▸ hready', hcache, ?_, ?_, ?_⟩, ?_⟩
  · rw [hready.tidy.memory_eq_nil h.served, hready'.tidy.memory_eq_nil h'.served]
  · rw [h.dependents, h'.dependents]
  · intro q
    rw [h.records, h'.records, henv]
  · intro f hf
    rw [h.indexed f hf, h'.indexed f (hfiles ▸ hf), henv]

end Twin

/-- The commands that reset a session: a reload, and a tree that does not have the items of the one
that its file had. -/
def Resets (s : Session) : Command → Prop
  | .reload => True
  | .set t => ∀ old, s.program.tree? t.file = some old → old.sameItems t = false
  | _ => False

theorem pristine_execute (h : s.cache.WellTimed) {c : Command} (hc : s.Resets c) :
    (s.execute c).2.Pristine := by
  cases c with
  | set t =>
    change (s.setFile t).Pristine
    cases ht : s.program.tree? t.file with
    | none =>
      rw [setFile_of_new ht]
      exact pristine_reload (h.revive t.file)
    | some old =>
      rw [setFile_of_changedItems ht (by simp [hc old ht])]
      exact pristine_reload h
  | reload => exact pristine_reload h
  | remove f => exact hc.elim
  | sweep => exact hc.elim
  | ask request => exact hc.elim

/-- After any history and a reset, every further command gets the reply of a new session on the same
trees, in whatever order these are installed. -/
theorem replies_after_reset (settings : Settings) (catalog : Catalog) (past : List Command)
    {reset : Command} (hreset : ((start settings catalog).executeAll past).2.Resets reset)
    {trees : List Tree}
    (htrees : trees.Perm
      (((start settings catalog).executeAll past).2.execute reset).2.program.trees)
    (later : List Command) :
    ((((start settings catalog).executeAll past).2.execute reset).2.executeAll later).1 =
      ((ofTrees settings catalog trees).executeAll later).1 := by
  have hstart := twin_start settings catalog
  -- both sessions come from the start by commands, so neither holds anything stale
  have hpast := (hstart.executeAll past).2
  have hleft := (hpast.execute reset).2
  have hright := (hstart.executeAll (trees.map .set)).2
  rw [executeAll_set] at hright
  have hnew := new_ofTrees_of_perm settings catalog htrees
  obtain ⟨hsettings, hcatalog, hcache⟩ := (start settings catalog).frame_executeAll past
  obtain ⟨hsettings', hcatalog', hcache'⟩ :=
    ((start settings catalog).executeAll past).2.frame_execute reset
  obtain ⟨-, -, hcacheNew⟩ := (start settings catalog).frame_executeAll (trees.map .set)
  rw [executeAll_set] at hcacheNew
  have htwin : Twin (((start settings catalog).executeAll past).2.execute reset).2
      (ofTrees settings catalog trees) := by
    refine .of_pristine (pristine_execute hpast.cache.left.tidy.timed hreset) hnew.pristine
      hleft.cache.left hright.cache.left ?_ ?_ ?_ hnew.program
    · exact hnew.settings.trans (hsettings'.trans hsettings).symm
    · exact hcacheNew.trans (hcache'.trans hcache).symm
    · exact hnew.catalog.trans (hcatalog'.trans hcatalog).symm
  exact (htwin.executeAll later).1.symm

/-- `module 0x5::m { struct Coin has keywords {} }` -/
def coinTree (keywords : List String) : Tree := Build.tree 0 do
  Build.module "0x5" "m" [← Build.struct "Coin" [] keywords []]

/-- `module 0x5::n { fun main(x: 0x5::m::Coin) { x; } }` -/
def purseTree : Tree := Build.tree 1 do
  let ty ← Build.typePath (.full "0x5" "m" "Coin") []
  let x ← Build.node (.param "x" (some ty))
  let path ← Build.path (.simple "x") []
  let body ← Build.block [← Build.node (.exprStmt path false)]
  Build.module "0x5" "n" [← Build.function "main" [] [x] none (some body)]

/-- Whether a coin can be copied, under a padded spelling of its address. -/
def copiesCoin : Command := .ask (.ability (.named (.full "0x05" "m" "Coin")) .copy)

def asksPurse : Command := .ask (.types (.one ⟨1, 2⟩))

/-- Fills the cache and the index, gives the purse up and changes the abilities of the coin. -/
def purseHistory : List Command :=
  [.set (coinTree ["copy"]), .set purseTree, asksPurse, copiesCoin, .remove 1,
    .set (coinTree ["drop"]), copiesCoin]

theorem trees_after_purseHistory :
    (((start {} .empty).executeAll purseHistory).2.execute (.set purseTree)).2.program.trees =
      [coinTree ["drop"], purseTree] := by
  rw [program_execute, program_executeAll]
  rfl

theorem replies_after_reset_purse :
    ((start {} .empty).executeAll purseHistory).2.Resets (.set purseTree) ∧
    ((start {} .empty).executeAll purseHistory).1.getLast? = some (.verdict true) ∧
    ((((start {} .empty).executeAll purseHistory).2.execute (.set purseTree)).2.executeAll
      [copiesCoin, asksPurse]).1 =
        [.verdict false, .types [some (.named (.full "0x5" "m" "Coin"))]] := by
  have hreset : ((start {} .empty).executeAll purseHistory).2.Resets (.set purseTree) := by
    have hnew : ((start {} .empty).executeAll purseHistory).2.program.tree? 1 = none := by
      rw [program_executeAll]
      rfl
    exact fun old hold => nomatch hnew.symm.trans hold
  refine ⟨hreset, by decide +kernel, ?_⟩
  rw [replies_after_reset {} .empty purseHistory hreset (.of_eq trees_after_purseHistory.symm)]
  decide +kernel

end MoveTyping.Session
