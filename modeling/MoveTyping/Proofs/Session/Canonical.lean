import MoveTyping.Tree.Build
import MoveTyping.Proofs.Catalog.Annotation
import MoveTyping.Proofs.Infer.Canonical
import MoveTyping.Proofs.Session.Commands

/-!
# Inferred types are canonical

A cache and its index are filled by engines and by sessions. Engines store what the rules give, and
sessions index what declarations say; all of it is canonical if the library is. So every type that
is inferred is canonical, and inferred types that spell the same type are equal.

## Main definitions

* `Cache.Stocked` — the caches that engines and sessions over one library fill.
* `Ty.Inferred` — the types that are inferred, over any library that loads.

## Main results

* `Session.stocked_executeAll` — every history of a session leaves such a cache.
* `Ty.Inferred.canonical_and_alike_iff` — inferred types are canonical.
-/

namespace MoveTyping

/-! ## Stocked caches -/

/-- A cache that was filled by nothing but engines and sessions over one library, whatever the trees
were, however names were resolved and however deep the engines went. -/
inductive Cache.Stocked (catalog : Catalog) : Cache → Prop
  | new (settings : CacheSettings) : Stocked catalog (.ofSettings settings)
  /-- An engine runs a rule. -/
  | run {α : Type} (i : Inference) (rule : Rule α) (e : Engine) : i.env.catalog = catalog →
      Stocked catalog e.cache → Stocked catalog (i.perform rule e).2.cache
  /-- New engines run rules side by side. -/
  | pool {α : Type} (i : Inference) (rules : List (Rule α)) (s : Shared) (schedule : List Nat) :
      i.env.catalog = catalog → Stocked catalog s.cache →
      Stocked catalog (Pool.run ⟨rules.map i.task, s⟩ schedule).2.cache
  | sweep {c : Cache} : Stocked catalog c → Stocked catalog c.sweep.2
  | invalidate {c : Cache} (file : FileId) : Stocked catalog c → Stocked catalog (c.invalidate file)
  | retire {c : Cache} (file : FileId) : Stocked catalog c → Stocked catalog (c.retire file)
  | revive {c : Cache} (file : FileId) : Stocked catalog c → Stocked catalog (c.revive file)
  | clear {c : Cache} : Stocked catalog c → Stocked catalog c.clear
  /-- A record that a file declares is indexed. -/
  | index {c : Cache} (env : Env) (file : FileId) {r : Record} : r ∈ env.declaredRecords file →
      Stocked catalog c → Stocked catalog (c.indexRecord r.name r)
  | unindex {c : Cache} (name : QName) : Stocked catalog c → Stocked catalog (c.unindex name).2

/-- All that is in a stocked cache is canonical. -/
theorem Cache.Stocked.holds {catalog : Catalog} (hcatalog : catalog.Canonical) {c : Cache}
    (h : c.Stocked catalog) : c.Holds Ty.Canonical Record.Canonical := by
  induction h with
  | new settings => exact holds_ofSettings settings
  | run i rule e hi _ ih =>
    have hupholds : i.env.Upholds Ty.Canonical Record.Canonical :=
      Env.upholds_canonical (hi ▸ hcatalog)
    exact (Inference.ensures_perform hupholds rule.ensures_trivial ih).2
  | pool i rules s schedule hi _ ih =>
    have hupholds : i.env.Upholds Ty.Canonical Record.Canonical :=
      Env.upholds_canonical (hi ▸ hcatalog)
    exact (Inference.ensures_pool hupholds (fun rule _ => rule.ensures_trivial) ih schedule).2
  | sweep _ ih => exact ih.sweep
  | invalidate file _ ih => exact ih.invalidate file
  | retire file _ ih => exact ih.retire file
  | revive file _ ih => exact ih.revive file
  | clear => exact .clear _
  | index env file hr _ ih => exact ih.indexRecord _ (Env.canonical_declaredRecords hr)
  | unindex name _ ih => exact ih.unindex name

/-! ## Sessions -/

namespace Session

variable {α : Type} {s : Session}

/-- The cache of the session is stocked over its library. -/
def Stocked (s : Session) : Prop := s.cache.Stocked s.catalog

theorem Stocked.perform (h : s.Stocked) (rule : Rule α) : (s.perform rule).2.Stocked :=
  .run s.inference rule (.ofCache s.cache) rfl h

/-- The engines of a batch are new engines side by side. -/
theorem runGroups_eq (s : Session) (nodes : List NodeId) (schedule : List Nat) :
    ∃ schedule', s.runGroups nodes schedule = Pool.run
      ⟨(((filesOf nodes).map fun f => nodes.zipIdx.filter (·.1.file = f)).map labelledRule).map
        s.inference.task, { cache := s.cache }⟩ schedule' := by
  rw [List.map_map, List.map_map]
  exact ⟨_, rfl⟩

theorem Stocked.inferBatch (h : s.Stocked) (nodes : List NodeId) (schedule : List Nat) :
    (s.inferBatch nodes schedule).2.Stocked := by
  obtain ⟨schedule', hrun⟩ := s.runGroups_eq nodes schedule
  change (s.runGroups nodes schedule).2.cache.Stocked s.catalog
  rw [hrun]
  exact .pool s.inference _ _ schedule' rfl h

theorem Stocked.serve (h : s.Stocked) (request : Request) : (s.serve request).2.Stocked := by
  cases request with
  | types q =>
    cases q with
    | one n => exact h.perform (.typeOf? n)
    | batch nodes schedule => exact h.inferBatch nodes schedule
  | fileTypes f => exact h.perform _
  | ability t a => exact h.perform _
  | abilities t required => exact h.perform _
  | bounds call => exact h.perform _

theorem stocked_foldl_unindex {catalog : Catalog} {c : Cache} (h : c.Stocked catalog)
    (names : List QName) : (names.foldl (fun c name => (c.unindex name).2) c).Stocked catalog :=
  List.foldlRecOn _ _ h fun _ hc name _ => hc.unindex name

theorem Stocked.reindex (h : s.Stocked) (file : FileId) : (s.reindex file).Stocked :=
  List.foldlRecOn _ _ (stocked_foldl_unindex h _) fun _ hc _ hr => hc.index s.env file hr

theorem Stocked.reload (h : s.Stocked) : s.reload.Stocked := by
  have hcleared : Stocked { s with cache := s.cache.clear, indexed := ∅ } := h.clear
  exact List.foldlRecOn _ _ hcleared fun _ hs file _ => hs.reindex file

theorem Stocked.setFile (h : s.Stocked) (t : Tree) : (s.setFile t).Stocked := by
  unfold Session.setFile
  dsimp only
  split
  · split
    · refine Stocked.reindex ?_ t.file
      exact Cache.Stocked.invalidate t.file h
    · exact Stocked.reload h
  · refine Stocked.reload ?_
    exact Cache.Stocked.revive t.file h

theorem Stocked.execute (h : s.Stocked) (command : Command) : (s.execute command).2.Stocked := by
  cases command with
  | set t => exact h.setFile t
  | remove file =>
    by_cases hf : file ∈ s.files
    · rw [Session.execute, removeFile_eq hf]
      exact stocked_foldl_unindex (h.retire file) _
    · rw [Session.execute, removeFile_of_notMem hf]
      exact h
  | reload => exact h.reload
  | sweep => exact Cache.Stocked.sweep h
  | ask request => exact h.serve request

/-- Every history of a session leaves a stocked cache. -/
theorem stocked_executeAll (settings : Settings) (catalog : Catalog) (cs : List Command) :
    ((start settings catalog).executeAll cs).2.Stocked := by
  have hrun : ∀ {s : Session}, s.Stocked → (s.executeAll cs).2.Stocked := by
    induction cs with
    | nil => exact id
    | cons c cs ih => exact fun hs => ih (hs.execute c)
  exact hrun (Cache.Stocked.new settings.cache)

end Session

/-! ## Inferred types -/

namespace Ty

variable {t u : Ty}

/-- The type is inferred for some node: in some program, with names resolved in some way, over a
library that loads and a cache that is stocked over it, by an engine in some state or by one of
several new engines that work side by side, each on some nodes. -/
def Inferred (t : Ty) : Prop :=
  ∃ (decl : Catalog.Declaration) (i : Inference), Catalog.load decl = .ok i.env.catalog ∧
    ((∃ (e : Engine) (n : NodeId), e.cache.Stocked i.env.catalog ∧ (i.infer n e).1 = some t) ∨
      ∃ (groups : List (List (NodeId × Nat))) (s : Shared) (schedule : List Nat),
        s.cache.Stocked i.env.catalog ∧
          ∃ answers ∈ (Pool.run ⟨(groups.map Session.labelledRule).map i.task, s⟩ schedule).1,
            ∃ k, (k, some t) ∈ answers)

theorem Inferred.canonical (h : t.Inferred) : t.Canonical := by
  obtain ⟨decl, i, hload, h⟩ := h
  have hcatalog : i.env.catalog.Canonical := Catalog.canonical_of_load hload
  have hi : i.env.Upholds Ty.Canonical Record.Canonical := Env.upholds_canonical hcatalog
  obtain ⟨e, n, hcache, ht⟩ | ⟨groups, s, schedule, hcache, answers, hanswers, k, ht⟩ := h
  · exact Inference.ensures_infer hi n (hcache.holds hcatalog) t ht
  · have hrules : ∀ rule ∈ groups.map Session.labelledRule,
        rule.Ensures Ty.Canonical Record.Canonical fun answers : List (Nat × Option Ty) =>
          ∀ answer ∈ answers, ∀ u ∈ answer.2, u.Canonical := by
      intro rule hrule
      obtain ⟨nodes, -, rfl⟩ := List.mem_map.1 hrule
      exact Rule.ensures_mapM fun node _ =>
        (Rule.ensures_typeOf? node.1).bind fun t ht => Rule.ensures_pure ht
    exact (Inference.ensures_pool hi hrules (hcache.holds hcatalog) schedule).1 answers hanswers
      _ ht t rfl

/-- What a session infers after any history is inferred. -/
theorem inferred_of_executeAll {decl : Catalog.Declaration} {catalog : Catalog}
    (hload : Catalog.load decl = .ok catalog) {settings : Settings} {cs : List Command} {n : NodeId}
    (ht : (((Session.start settings catalog).executeAll cs).2.infer n).1 = some t) :
    t.Inferred := by
  have hstocked := Session.stocked_executeAll settings catalog cs
  obtain ⟨-, hcatalog, -⟩ := (Session.start settings catalog).frame_executeAll cs
  -- nothing else about the history counts
  generalize ((Session.start settings catalog).executeAll cs).2 = s at *
  have hload : Catalog.load decl = .ok s.catalog := hload.trans (congrArg Except.ok hcatalog.symm)
  exact ⟨decl, s.inference, hload, .inl ⟨.ofCache s.cache, n, hstocked, ht⟩⟩

/-- So is what it infers in a batch, whatever turns the engines take. -/
theorem inferred_of_batch {decl : Catalog.Declaration} {catalog : Catalog}
    (hload : Catalog.load decl = .ok catalog) {settings : Settings} {cs : List Command}
    {nodes : List NodeId} {schedule : List Nat}
    (ht : some t ∈
      (((Session.start settings catalog).executeAll cs).2.inferBatch nodes schedule).1) :
    t.Inferred := by
  have hstocked := Session.stocked_executeAll settings catalog cs
  obtain ⟨-, hcatalog, -⟩ := (Session.start settings catalog).frame_executeAll cs
  generalize ((Session.start settings catalog).executeAll cs).2 = s at *
  have hload : Catalog.load decl = .ok s.catalog := hload.trans (congrArg Except.ok hcatalog.symm)
  obtain ⟨k, -, hk⟩ := List.mem_map.1 ht
  obtain ⟨l, l', hsplit, -⟩ := List.lookup_eq_some_iff.1 (Option.join_eq_some_iff.1 hk)
  have hmem : (k, some t) ∈ (s.runGroups nodes schedule).1.flatten := hsplit ▸ by simp
  obtain ⟨answers, hanswers, hmem⟩ := List.mem_flatten.1 hmem
  obtain ⟨schedule', hrun⟩ := s.runGroups_eq nodes schedule
  rw [hrun] at hanswers
  exact ⟨decl, s.inference, hload,
    .inr ⟨_, { cache := s.cache }, schedule', hstocked, answers, hanswers, k, hmem⟩⟩

/-- Inferred types are canonical: nowhere in them is a tuple of fewer than two elements, a generic
type without arguments other than `vector`, or the library's string as a struct. So two inferred
types are equal as trees exactly if they spell the same type. -/
theorem Inferred.canonical_and_alike_iff (ht : t.Inferred) (hu : u.Inferred) :
    t.Canonical ∧ (t.Alike u ↔ t = u) :=
  ⟨ht.canonical, ht.canonical.alike_iff hu.canonical⟩

/-- `module 0x6::t` with `const C: (0x5::m::Coin<()>, (0x1::string::String))` and
`const D = vector[(C)]`. -/
def pairTree : Tree := Build.tree 0 do
  let coin ← Build.typePath (.full "0x5" "m" "Coin") [← Build.typeTuple []]
  let string ← Build.typeTuple [← Build.typePath (.full "0x1" "string" "String") []]
  let c ← Build.node (.const "C" (some (← Build.typeTuple [coin, string])) none)
  let elem ← Build.tuple [← Build.path (.simple "C") []]
  let d ← Build.node (.const "D" none (some (← Build.vector none [elem])))
  Build.module "0x6" "t" [c, d]

/-- The types of `(C)` and `D` in a session that has inferred them already. -/
theorem canonical_and_alike_iff_pair :
    let s := ((Session.start {} Catalog.bankCatalog).executeAll
      [.set pairTree, .ask (.types (.one ⟨0, 9⟩))]).2
    let t : Ty := tuple [generic (.full "0x5" "m" "Coin") [unit], prim .string]
    (s.infer ⟨0, 7⟩).1 = some t ∧ (s.infer ⟨0, 9⟩).1 = some (vector t) ∧
      t.Canonical ∧ ¬t.Alike (vector t) := by
  intro s t
  have ht : (s.infer ⟨0, 7⟩).1 = some t := by decide +kernel
  have hu : (s.infer ⟨0, 9⟩).1 = some (vector t) := by decide +kernel
  obtain ⟨hcanonical, halike⟩ := Inferred.canonical_and_alike_iff
    (inferred_of_executeAll Catalog.load_bankDecl ht)
    (inferred_of_executeAll Catalog.load_bankDecl hu)
  exact ⟨ht, hu, hcanonical, fun h => absurd (halike.1 h) (by decide)⟩

end Ty

end MoveTyping
