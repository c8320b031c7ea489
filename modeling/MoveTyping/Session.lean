import MoveTyping.Infer.Engine

/-!
# Sessions

A session owns the live trees and what is derived from them. Edits keep the cache and the index of
struct records in step with the trees; each query runs an engine of its own over the current trees.
A batch runs an engine for each of its files, and these may take turns.

Replacing a file drops the types of its nodes and those derived from it. A name that was not found
in a live module may have been found in the library without a trace of that module, so an edit that
changes which items there are resets everything.

## Main definitions

* `Session.setFile`, `Session.removeFile`, `Session.reload`, `Session.sweep` — the edits.
* `Session.infer`, `Session.inferBatch`, `Session.inferFile`, `Session.hasAbility`,
  `Session.hasAbilities`, `Session.checkCall` — the queries.
-/

namespace MoveTyping

structure Session where
  settings : Settings
  catalog : Catalog
  sources : Sources := .initial
  cache : Cache
  /-- The records that each file has put into the index. -/
  indexed : Table FileId (List QName) := ∅
  counters : EngineCounters := {}

namespace Session

variable {α : Type}

def start (settings : Settings) (catalog : Catalog) : Session :=
  { settings, catalog, cache := .ofSettings settings.cache }

def program (s : Session) : Program := s.sources.program

def files (s : Session) : List FileId := s.program.files

def env (s : Session) : Env := .ofProgram s.program s.catalog

def newFile (s : Session) : FileId × Session :=
  let (file, sources) := s.sources.newFile
  (file, { s with sources })

/-! ## Edits -/

/-- Brings the index in step with the structs of a file. -/
def reindex (s : Session) (file : FileId) : Session :=
  let records := s.env.declaredRecords file
  let names := records.map Record.name
  let gone := ((s.indexed.get? file).getD []).filter (!names.contains ·)
  let cache := gone.foldl (fun c name => (c.unindex name).2) s.cache
  { s with
    cache := records.foldl (fun c r => c.indexRecord r.name r) cache
    indexed := s.indexed.insert file names }

def reindexAll (s : Session) : Session := s.files.foldl reindex { s with indexed := ∅ }

/-- Forgets all that was derived, and builds the index again. -/
def reload (s : Session) : Session := reindexAll { s with cache := s.cache.clear }

/-- Installs a tree, in the place of the one its file had. -/
def setFile (s : Session) (t : Tree) : Session :=
  let previous := s.program.tree? t.file
  let s := { s with sources := (s.sources.install t).2 }
  match previous with
  | some old =>
    if old.sameItems t then reindex { s with cache := s.cache.invalidate t.file } t.file
    else s.reload
  | none => reload { s with cache := s.cache.revive t.file }

/-- Drops a file, and says whether it was live. -/
def removeFile (s : Session) (file : FileId) : Bool × Session :=
  match s.sources.remove file with
  | (false, _) => (false, s)
  | (true, sources) =>
    let names := (s.indexed.get? file).getD []
    (true,
      { s with
        sources
        cache := names.foldl (fun c name => (c.unindex name).2) (s.cache.retire file)
        indexed := s.indexed.erase file })

/-- Drops what is stale from the cache, and gives the number of types dropped. -/
def sweep (s : Session) : Nat × Session :=
  let (dropped, cache) := s.cache.sweep
  (dropped, { s with cache })

/-! ## Queries -/

def inference (s : Session) : Inference := ⟨s.env, s.cache.generation, s.settings.depthLimit⟩

/-- The session with what engines have left behind. -/
def absorb (s : Session) (left : Shared) : Session :=
  { s with cache := left.cache, counters := s.counters + left.counters }

/-- Runs a rule on a new engine. -/
def perform (s : Session) (rule : Rule α) : α × Session :=
  let (a, e) := s.inference.perform rule (.ofCache s.cache)
  (a, s.absorb e.toShared)

/-- The type of a node in the current trees. -/
def infer (s : Session) (node : NodeId) : Option Ty × Session := s.perform (.typeOf? node)

/-- The files of some nodes, in ascending order. -/
def filesOf (nodes : List NodeId) : List FileId :=
  nodes.foldr (fun node files => Cache.addFile node.file files) []

/-- The types of several nodes, each with a label. -/
def labelledRule {κ : Type} (nodes : List (NodeId × κ)) : Rule (List (κ × Option Ty)) :=
  nodes.mapM fun (node, label) => return (label, ← Rule.typeOf? node)

/-- The types of those of the nodes that belong to one file, with their positions, as the task of an
engine. -/
def groupTask (s : Session) (nodes : List NodeId) (file : FileId) :
    Task (List (Nat × Option Ty)) :=
  s.inference.task (labelledRule (nodes.zipIdx.filter (·.1.file = file)))

/-- Runs the engines of all files. If the settings allow it, the engines of several files work side
by side and take turns as the schedule says; else the files are done one after the other, in
ascending order. -/
def runGroups (s : Session) (nodes : List NodeId) (schedule : List Nat) :
    List (List (Nat × Option Ty)) × Shared :=
  let tasks := (filesOf nodes).map (s.groupTask nodes)
  Pool.run ⟨tasks, { cache := s.cache }⟩
    (if s.settings.parallel && 1 < tasks.length then schedule else [])

/-- The types of many nodes, in the order of the nodes. Each file has an engine of its own. -/
def inferBatch (s : Session) (nodes : List NodeId) (schedule : List Nat := []) :
    List (Option Ty) × Session :=
  let (answers, left) := s.runGroups nodes schedule
  ((List.range nodes.length).map fun i => (answers.flatten.lookup i).join, s.absorb left)

/-- The expressions of a file that have a type, in the order of the nodes. -/
def inferFile (s : Session) (file : FileId) : List (NodeId × Ty) × Session :=
  let exprs := match s.program.tree? file with
    | some t => t.ids.filter fun id => (t.kind? id).any NodeKind.isExpr
    | none => []
  let (answers, s) := s.perform (labelledRule (exprs.map fun id => (id, id)))
  (answers.filterMap fun (id, t) => t.map (id, ·), s)

def hasAbility (s : Session) (t : Ty) (a : Ability) : Bool × Session :=
  s.perform (.hasAbility t a)

def hasAbilities (s : Session) (t : Ty) (required : AbilitySet) : Bool × Session :=
  s.perform (.hasAbilities t required)

/-- The type arguments of a call that violate the bounds of the callee. -/
def checkCall (s : Session) (call : NodeId) : List BoundViolation × Session :=
  s.perform (s.env.boundsRule call)

/-! ## Counters -/

/-- The counters of a session in one line. -/
def summary (s : Session) : String :=
  let cache := s.cache.counters
  toString s.files.length ++ " files, " ++ toString s.cache.size ++ " cached types (" ++
    toString cache.hits ++ " hits, " ++ toString cache.misses ++ " misses), " ++
    toString s.counters.queries ++ " queries, " ++ toString s.counters.computed ++ " computed, " ++
    toString s.counters.cycles ++ " cycles, " ++ toString s.counters.depthCutoffs ++
    " depth cut-offs"

end Session

end MoveTyping
