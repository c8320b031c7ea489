import MoveTyping.Tree.Build
import MoveTyping.Proofs.Session.Coherence
import MoveTyping.Proofs.Session.Memo

/-!
# Edits

A session over any history of edits and queries answers like a new session on the current trees, as
long as nothing is cut off and each edit that does not reset the session keeps the outline of its
file and reports the records that it changes. Without the second condition stale types are served:
a type that was derived without a reading of the file outlives every such edit.

## Main definitions

* `Event`, `Session.after` — the edits and queries of a session.
* `Session.Allows` — what is asked of an edit.
-/

namespace MoveTyping

/-- An edit or a query. -/
inductive Event where
  | set (tree : Tree)
  | reload
  | ask (query : Query)

namespace Session

variable {settings : Settings} {catalog : Catalog} {s : Session} {t old : Tree} {e : Event}
  {events : List Event} {n : NodeId} {x : Cached}

/-! ## Histories -/

def step (s : Session) : Event → Session
  | .set t => s.setFile t
  | .reload => s.reload
  | .ask q => (s.answer q).2

/-- The session after some edits and queries. -/
def after (s : Session) (events : List Event) : Session := events.foldl step s

/-- An edit is allowed if no module is declared twice after it. If it keeps the items, so that the
session is not reset, it has to keep the outline and to report the records that it changes. -/
def Allows (s : Session) : Event → Prop
  | .set t => t.WellFormed ∧ (s.program.insert t).DistinctModules s.catalog.aliases ∧
      ∀ old, s.program.tree? t.file = some old → old.sameItems t = true →
        old.SameOutline t ∧
          Env.Reported t.file s.env (.ofProgram (s.program.insert t) s.catalog)
  | _ => True

/-- Each event is allowed when it comes. -/
def AllowsAll : Session → List Event → Prop
  | _, [] => True
  | s, e :: events => s.Allows e ∧ (s.step e).AllowsAll events

theorem program_step_set (s : Session) (t : Tree) :
    (s.step (.set t)).program = s.program.insert t := (s.setFile_frame t).2.2.1

theorem program_step_ask (s : Session) (q : Query) :
    (s.step (.ask q)).program = s.program := congrArg Sources.program (s.asked_answer q).sources

theorem program_after_set (s : Session) (trees : List Tree) :
    (s.after (trees.map .set)).program = trees.foldl Program.insert s.program := by
  induction trees generalizing s with
  | nil => rfl
  | cons t trees ih =>
    have hrest := ih (s.step (.set t))
    rw [program_step_set] at hrest
    exact hrest

theorem allowsAll_append {events' : List Event} :
    s.AllowsAll (events ++ events') ↔ s.AllowsAll events ∧ (s.after events).AllowsAll events' := by
  induction events generalizing s with
  | nil => simp [AllowsAll, after]
  | cons e events ih =>
    have hrest := ih (s := s.step e)
    simp only [List.cons_append, AllowsAll, hrest, and_assoc]
    rfl

/-- An edit that keeps the outline of a file without structs is allowed. -/
theorem allows_valuesOnly (hp : ∀ u ∈ s.program.trees, u.WellFormed) (ht : t.WellFormed)
    (hdistinct : (s.program.insert t).DistinctModules s.catalog.aliases)
    (hold : s.program.tree? t.file = some old) (houtline : old.SameOutline t)
    (hvalues : old.ValuesOnly) : s.Allows (.set t) := by
  refine ⟨ht, hdistinct, fun old' hold' _ => ?_⟩
  obtain rfl := Option.some.inj (hold.symm.trans hold')
  exact ⟨houtline, Env.reported_of_valuesOnly hp ht hold houtline hvalues⟩

/-- It is allowed to open files one after the other. -/
theorem allowsAll_set {trees : List Tree} (hfiles : (trees.map (·.file)).Nodup)
    (hnew : ∀ t ∈ trees, s.program.tree? t.file = none) (hwf : ∀ t ∈ trees, t.WellFormed)
    (hdistinct : (trees.foldl Program.insert s.program).DistinctModules s.catalog.aliases) :
    s.AllowsAll (trees.map .set) := by
  induction trees generalizing s with
  | nil => trivial
  | cons t trees ih =>
    simp only [List.forall_mem_cons, List.map_cons, List.nodup_cons] at hfiles hnew hwf
    have hother : ∀ u ∈ trees, u.file ≠ t.file := fun u hu heq =>
      hfiles.1 (heq ▸ List.mem_map_of_mem hu)
    refine ⟨⟨hwf.1, hdistinct.mono fun f u hu => ?_, ?_⟩, ?_⟩
    · rw [List.foldl_cons, Program.tree?_foldl_insert hfiles.2]
      cases hfind : trees.find? (·.file = f) with
      | none => exact hu
      | some v =>
        have hv := List.mem_of_find?_eq_some hfind
        obtain rfl : v.file = f := by simpa using List.find?_some hfind
        rw [Program.tree?_insert, if_neg (hother v hv), hnew.2 v hv] at hu
        cases hu
    · intro old hold
      rw [hnew.1] at hold
      cases hold
    · obtain ⟨-, hcatalog, hprogram, -⟩ := s.setFile_frame t
      have hprogram : (s.step (.set t)).program = s.program.insert t := hprogram
      refine ih hfiles.2 (fun u hu => ?_) hwf.2 ?_
      · rw [hprogram, Program.tree?_insert, if_neg (hother u hu)]
        exact hnew.2 u hu
      · rw [hprogram]
        exact hcatalog ▸ hdistinct

theorem Coherent.setFile (h : s.Coherent) (hallowed : s.Allows (.set t)) :
    (s.setFile t).Coherent := by
  obtain ⟨ht, hdistinct, hquiet⟩ := hallowed
  obtain ⟨-, hcatalog, hprogram, -⟩ := s.setFile_frame t
  have hwf : ∀ u ∈ (s.program.insert t).trees, u.WellFormed := by
    intro u hu
    rcases Program.mem_trees_insert hu with rfl | hu
    · exact ht
    · exact h.wellFormed u hu
  cases hold : s.program.tree? t.file with
  | none =>
    rw [setFile_of_new hold]
    exact coherent_reload (h.consistent.timed.revive t.file) hwf hdistinct
  | some old =>
    by_cases hitems : old.sameItems t = true
    · obtain ⟨houtline, hreported⟩ := hquiet old hold hitems
      have henv : (s.setFile t).env = .ofProgram (s.program.insert t) s.catalog := by
        rw [env, hprogram, hcatalog]
      have hedited : Env.Edited t.file s.env (s.setFile t).env := by
        rw [henv]
        exact Env.edited_of_steady (Scope.steady_insert h.wellFormed ht hold houtline _)
      have hrevised := revised_setFile h.consistent.timed h.indexed hold hitems
      refine hrevised.coherent h ?_ ?_ hedited (henv ▸ hreported)
      · rw [hprogram]
        exact hwf
      · rw [hprogram, hcatalog]
        exact hdistinct
    · rw [setFile_of_changedItems hold hitems]
      exact coherent_reload h.consistent.timed hwf hdistinct

theorem cuts_le_step (s : Session) (e : Event) : s.cuts ≤ (s.step e).cuts := by
  cases e with
  | set t =>
    obtain ⟨-, -, -, hcounters, -⟩ := s.setFile_frame t
    simp only [step, cuts, hcounters]
    exact Nat.le_refl _
  | reload =>
    have hcounters := (reindexed_reload s).counters
    simp only [step, cuts, hcounters]
    exact Nat.le_refl _
  | ask q => exact s.cuts_le_answer q

theorem cuts_le_after (s : Session) (events : List Event) : s.cuts ≤ (s.after events).cuts := by
  induction events generalizing s with
  | nil => exact Nat.le_refl _
  | cons e events ih => exact (s.cuts_le_step e).trans (ih (s.step e))

theorem catalog_step (s : Session) (e : Event) : (s.step e).catalog = s.catalog := by
  cases e with
  | set t => exact (s.setFile_frame t).2.1
  | reload => exact (reindexed_reload s).catalog
  | ask q => exact (s.asked_answer q).catalog

theorem catalog_after (s : Session) (events : List Event) :
    (s.after events).catalog = s.catalog := by
  induction events generalizing s with
  | nil => rfl
  | cons e events ih => exact (ih (s.step e)).trans (s.catalog_step e)

theorem Coherent.step (h : s.Coherent) (hallowed : s.Allows e)
    (hcuts : (s.step e).cuts = s.cuts) : (s.step e).Coherent := by
  cases e with
  | set t => exact h.setFile hallowed
  | reload => exact coherent_reload h.consistent.timed h.wellFormed h.distinct
  | ask q => exact h.answer hcuts

theorem Coherent.after (h : s.Coherent) (hallowed : s.AllowsAll events)
    (hcuts : (s.after events).cuts = s.cuts) : (s.after events).Coherent := by
  induction events generalizing s with
  | nil => exact h
  | cons e events ih =>
    have hfirst := s.cuts_le_step e
    have hrest := (s.step e).cuts_le_after events
    change ((s.step e).after events).cuts = s.cuts at hcuts
    exact ih (h.step hallowed.1 (by omega)) hallowed.2 (by omega)

theorem coherent_start (settings : Settings) (catalog : Catalog) :
    (start settings catalog).Coherent :=
  (pristine_start settings catalog).coherent (fun _ ht => nomatch ht) fun _ hm => nomatch hm

/-! ## Answers -/

/-- A coherent session and a new one on the same trees give the same answers. -/
theorem Coherent.answer_eq (h : s.Coherent) {s₀ : Session} {q : Query}
    (hcuts : (s.answer q).2.cuts = s.cuts) (hnew : New settings s.catalog s.program s₀)
    (hfresh : ∀ m ∈ q.nodes, (s₀.infer m).2.Clean) :
    (s.answer q).1 = q.nodes.map fun m => (s₀.infer m).1 := by
  have henv : s₀.env = s.env := by
    rw [env, hnew.program, hnew.catalog, env]
  refine eq_map_of_forall₂ (h.covered.answer q hcuts).2 fun m hm ty hty => ?_
  obtain ⟨F, u, hu, -⟩ := hty
  obtain ⟨-, v, hv⟩ := hnew.exact.derives (hnew.cuts_infer (hfresh m hm))
  rw [henv] at hv
  exact (Env.Derives.unique hu hv).1

/-! ## Types that outlive an edit -/

/-- A type that is served is the answer. -/
theorem infer_of_served (hn : s.program.contains n = true)
    (hlimit : ∃ depth, s.settings.depthLimit.limit = depth + 1)
    (hx : s.cache.served? n = some x) : (s.infer n).1 = some x.ty := by
  obtain ⟨depth, hdepth⟩ := hlimit
  rw [infer_eq, hdepth, Inference.inferWithin_hit hn (by simp [Engine.ofCache]) hx]

/-- After its own query a new session has recorded a node under no other files than those that the
node is served with. -/
theorem New.not_mem_dependents {p : Program} {s₀ : Session} {f : FileId}
    (h : New settings catalog p s₀) (hcuts : (s₀.infer n).2.cuts = s₀.cuts)
    (hx : (s₀.infer n).2.cache.served? n = some x) (hn : f ≠ n.file) (hdeps : f ∉ x.deps) :
    (f, n) ∉ (s₀.infer n).2.cache.dependents := by
  have hc := (h.exact.derives hcuts).1.cache
  intro hmem
  obtain ⟨ty, u, hu, hf⟩ := hc.dependents hmem
  obtain ⟨v, hv, hfiles⟩ := hc.served hx
  rw [(hu.unique hv).2, hfiles] at hf
  simp only [Finset.mem_insert, List.mem_toFinset] at hf
  exact hf.elim hn hdeps

/-- A node with a type that a new session answers without a cut-off is in the program, and the
session has room to look it up. -/
theorem New.answers_served {p : Program} {s₀ : Session}
    (h : New settings catalog p s₀) (hcuts : (s₀.infer n).2.cuts = s₀.cuts)
    (hx : (s₀.infer n).2.cache.served? n = some x) :
    s₀.program.contains n = true ∧ ∃ depth, s₀.settings.depthLimit.limit = depth + 1 := by
  obtain ⟨v, hv, -⟩ := (h.exact.derives hcuts).1.cache.served hx
  have hn : s₀.program.contains n = true := by
    by_contra hno
    exact nomatch hv.none_of_not_contains (Bool.eq_false_iff.2 hno)
  have hrun : (s₀.inference.inferWithin s₀.settings.depthLimit.limit n
      (.ofCache s₀.cache)).2.cuts = 0 := by
    have := s₀.cuts_infer n
    omega
  exact ⟨hn, (Inference.depth_pos_of_uncut hn hrun).2⟩

/-- A type that is served without the file is the answer after any edit that keeps the items. -/
theorem New.infer_setFile {p : Program} {s₀ : Session} (h : New settings catalog p s₀)
    (hcuts : (s₀.infer n).2.cuts = s₀.cuts) (hold : s₀.program.tree? t.file = some old)
    (hitems : old.sameItems t = true) (hx : (s₀.infer n).2.cache.served? n = some x)
    (hn : t.file ≠ n.file) (hdeps : t.file ∉ x.deps) :
    (((s₀.infer n).2.setFile t).infer n).1 = some x.ty := by
  obtain ⟨hcontains, hlimit⟩ := h.answers_served hcuts hx
  obtain ⟨hsettings, -, hprogram, -⟩ := (s₀.infer n).2.setFile_frame t
  have hafter : (s₀.infer n).2.program.tree? t.file = some old := hold
  have hserved : ((s₀.infer n).2.setFile t).cache.served? n = some x := by
    rw [setFile_of_sameItems hafter hitems, (reindexed_reindex _ _).served?]
    exact Cache.served?_invalidate hx hn hdeps (h.not_mem_dependents hcuts hx hn hdeps)
  refine infer_of_served ?_ ?_ hserved
  · have hsame : (s₀.program.insert t).contains n = s₀.program.contains n := by
      rw [Program.contains, Program.tree?_insert, if_neg hn.symm, Program.contains]
    rw [hprogram]
    exact hsame.trans hcontains
  · rw [hsettings]
    exact hlimit

/-! ## Coherence under edits -/

/-- After any allowed history in which nothing is cut off, the answers to a query are those of a new
session on the current trees. What is asked of edits that keep the items cannot be left out: a type
that a new session serves without the file of such an edit is its answer after the edit too,
whatever the new tree says. -/
theorem answer_after_edits (settings : Settings) (catalog : Catalog) :
    (∀ (events : List Event) (trees : List Tree) (q : Query),
      (start settings catalog).AllowsAll events →
      trees.Perm ((start settings catalog).after events).program.trees →
      (((start settings catalog).after events).answer q).2.Clean →
      (∀ n ∈ q.nodes, ((ofTrees settings catalog trees).infer n).2.Clean) →
      (((start settings catalog).after events).answer q).1 =
        q.nodes.map fun n => ((ofTrees settings catalog trees).infer n).1) ∧
    ∀ (trees : List Tree) (old t : Tree) (n : NodeId) (x : Cached),
      (trees.map (·.file)).Nodup →
      ((ofTrees settings catalog trees).infer n).2.Clean →
      (ofTrees settings catalog trees).program.tree? t.file = some old →
      old.sameItems t = true →
      ((ofTrees settings catalog trees).infer n).2.cache.served? n = some x →
      t.file ≠ n.file → t.file ∉ x.deps →
      ((((ofTrees settings catalog trees).infer n).2.setFile t).infer n).1 = some x.ty := by
  constructor
  · intro events trees q hallowed htrees hclean hfresh
    have hstart : (start settings catalog).cuts = 0 := rfl
    have hle := (start settings catalog).cuts_le_after events
    have hlast := ((start settings catalog).after events).cuts_le_answer q
    rw [clean_iff] at hclean
    have hcoherent := (coherent_start settings catalog).after hallowed (by omega)
    have hcatalog : ((start settings catalog).after events).catalog = catalog :=
      (start settings catalog).catalog_after events
    have hnew : New settings ((start settings catalog).after events).catalog
        ((start settings catalog).after events).program (ofTrees settings catalog trees) := by
      rw [hcatalog]
      exact new_ofTrees_of_perm settings catalog htrees
    exact hcoherent.answer_eq (by omega) hnew hfresh
  · intro trees old t n x hfiles hclean hold hitems hx hn hdeps
    have hnew := new_ofTrees settings catalog hfiles
    exact hnew.infer_setFile (hnew.cuts_infer hclean) hold hitems hx hn hdeps

/-! ## A field of a field -/

/-- `module 0x5::a { struct S { f: 0x5::b::T } }` -/
def shapesTree : Tree := Build.tree 0 do
  let ty ← Build.typePath (.full "0x5" "b" "T") []
  Build.module "0x5" "a" [← Build.struct "S" [] [] [("f", ty)]]

/-- `module 0x5::b { struct T { g: field } }` -/
def innerTree (field : String) : Tree := Build.tree 1 do
  let ty ← Build.typePath (.simple field) []
  Build.module "0x5" "b" [← Build.struct "T" [] [] [("g", ty)]]

/-- `module 0x5::c { fun main(x: 0x5::a::S) { x.f.g; } }` -/
def userTree : Tree := Build.tree 2 do
  let ty ← Build.typePath (.full "0x5" "a" "S") []
  let x ← Build.node (.param "x" (some ty))
  let path ← Build.path (.simple "x") []
  let outer ← Build.node (.fieldAccess path "f")
  let inner ← Build.node (.fieldAccess outer "g")
  let body ← Build.block [← Build.node (.exprStmt inner false)]
  Build.module "0x5" "c" [← Build.function "main" [] [x] none (some body)]

/-- `module 0x5::d { const RATE: ty; }` -/
def ratesTree (ty : String) : Tree := Build.tree 3 do
  let ty ← Build.typePath (.simple ty) []
  Build.module "0x5" "d" [← Build.node (.const "RATE" (some ty) none)]

/-- `module 0x5::e { fun main() { 0x5::d::RATE; } }` -/
def shopTree : Tree := Build.tree 4 do
  let rate ← Build.path (.full "0x5" "d" "RATE") []
  let body ← Build.block [← Build.node (.exprStmt rate false)]
  Build.module "0x5" "e" [← Build.function "main" [] [] none (some body)]

def openTrees (rate : String) : List Tree :=
  [shapesTree, innerTree "u64", userTree, ratesTree rate, shopTree]

/-- Asks for `x.f.g` and for `0x5::d::RATE`, with two engines that take turns. -/
def ratesQuery : Query := .batch [⟨2, 4⟩, ⟨4, 0⟩] ((List.range 24).map (· % 2))

/-- The type of the rate changes after it is asked for. -/
def ratesEvents : List Event :=
  (openTrees "u64").map .set ++ [.ask ratesQuery, .set (ratesTree "bool")]

theorem program_before_ratesEdit :
    (((start {} .empty).after ((openTrees "u64").map .set)).step (.ask ratesQuery)).program =
      (openTrees "u64").foldl Program.insert .empty :=
  (program_step_ask _ _).trans (program_after_set _ _)

theorem trees_after_ratesEvents :
    ((start {} .empty).after ratesEvents).program.trees = openTrees "bool" := by
  have hafter : (start {} .empty).after ratesEvents =
      (((start {} .empty).after ((openTrees "u64").map .set)).step (.ask ratesQuery)).step
        (.set (ratesTree "bool")) := by
    simp only [after, ratesEvents, List.foldl_append, List.foldl_cons, List.foldl_nil]
  rw [hafter, program_step_set, program_before_ratesEdit]
  rfl

theorem allowsAll_openTrees : (start {} .empty).AllowsAll ((openTrees "u64").map .set) :=
  allowsAll_set (by decide +kernel) (fun _ _ => rfl) (by decide +kernel) (by decide +kernel)

theorem allowsAll_ratesEvents : (start {} .empty).AllowsAll ratesEvents := by
  refine allowsAll_append.2 ⟨allowsAll_openTrees, trivial, ?_, trivial⟩
  refine @allows_valuesOnly _ _ (ratesTree "u64") ?_ (by decide +kernel) ?_ ?_ (by decide +kernel)
    (by decide +kernel)
  · rw [program_before_ratesEdit]
    decide +kernel
  · rw [program_before_ratesEdit, catalog_step, catalog_after]
    decide +kernel
  · rw [program_before_ratesEdit]
    rfl

theorem answer_after_edits_rates :
    (((start {} .empty).after ratesEvents).answer ratesQuery).1 =
      [some (.prim .u64), some (.prim .bool)] ∧
    ((((ofTrees {} .empty (openTrees "u64")).infer ⟨2, 4⟩).2.setFile (innerTree "u8")).infer
      ⟨2, 4⟩).1 = some (.prim .u64) := by
  obtain ⟨hanswers, hretained⟩ := answer_after_edits {} .empty
  constructor
  · rw [hanswers ratesEvents (openTrees "bool") ratesQuery allowsAll_ratesEvents
      (.of_eq trees_after_ratesEvents.symm) (clean_iff.2 (by decide +kernel)) ?_]
    · decide +kernel
    · simp only [ratesQuery, Query.nodes, List.forall_mem_cons]
      exact ⟨clean_iff.2 (by decide +kernel), clean_iff.2 (by decide +kernel), by simp⟩
  · exact hretained (openTrees "u64") (innerTree "u64") (innerTree "u8") ⟨2, 4⟩
      ⟨.prim .u64, [0]⟩ (by decide +kernel) (clean_iff.2 (by decide +kernel)) rfl (by decide)
      (by decide +kernel) (by decide) (by decide)

/-- The field `g` changes its type after `x.f.g` is asked for. The edit keeps the outline and
nothing is cut off, but the type of `x.f.g` was recorded with the file of `S` only, and it stays. -/
theorem field_of_field_stale :
    (∀ t ∈ [shapesTree, innerTree "u64", innerTree "u8", userTree], t.WellFormed) ∧
    (innerTree "u64").SameOutline (innerTree "u8") ∧
    (ofTrees {} .empty [shapesTree, innerTree "u8", userTree]).program.DistinctModules
      Catalog.empty.aliases ∧
    (((start {} .empty).after [.set shapesTree, .set (innerTree "u64"), .set userTree,
      .ask (.one ⟨2, 4⟩), .set (innerTree "u8")]).answer (.one ⟨2, 4⟩)).1 =
        [some (.prim .u64)] ∧
    (((start {} .empty).after [.set shapesTree, .set (innerTree "u64"), .set userTree,
      .ask (.one ⟨2, 4⟩), .set (innerTree "u8")]).answer (.one ⟨2, 4⟩)).2.Clean ∧
    ((ofTrees {} .empty [shapesTree, innerTree "u8", userTree]).infer ⟨2, 4⟩).1 =
      some (.prim .u8) ∧
    ((ofTrees {} .empty [shapesTree, innerTree "u8", userTree]).infer ⟨2, 4⟩).2.Clean := by
  exact ⟨by decide +kernel, by decide +kernel, by decide +kernel, by decide +kernel,
    clean_iff.2 (by decide +kernel), by decide +kernel, clean_iff.2 (by decide +kernel)⟩

end Session

end MoveTyping
