import MoveTyping.Cache.Evict

/-!
# Look-ups and insertions

A look-up serves a valid entry and drops a stale one. An insertion stores a type without unknown
parts whose files have not changed since it was computed.

## Main definitions

* `Cache.fetch` — the look-up.
* `Cache.insert` — the insertion.
* `Cache.getOrCompute`, `Cache.getOrDerive` — the look-up with a computation for what is missing,
  without and with the files that the computation read.
* `Cache.Access`, `Cache.access` — the calls of those who work on a cache, as data.
-/

namespace MoveTyping.Cache

/-- The valid entry of a node. -/
def fetch (c : Cache) (node : NodeId) : Option Cached × Cache :=
  match c.entries.get? node with
  | some e =>
    if c.isValid node.file e.generation e.deps then
      (some e.toCached,
        { c with
          entries := c.entries.insert node { e with lastUsed := c.tick }
          tick := c.tick + 1
          counters := { c.counters with hits := c.counters.hits + 1 } })
    else
      (none,
        { c with
          entries := c.entries.erase node
          counters := { c.counters with misses := c.counters.misses + 1 } })
  | none => (none, { c with counters := { c.counters with misses := c.counters.misses + 1 } })

/-- The cached type of a node. -/
def get (c : Cache) (node : NodeId) : Option Ty × Cache :=
  let (found, c) := c.fetch node
  (found.map Cached.ty, c)

/-- Adds a file to an ascending list. -/
def addFile (file : FileId) : List FileId → List FileId
  | [] => [file]
  | f :: fs =>
    if file < f then file :: f :: fs
    else if file = f then f :: fs
    else f :: addFile file fs

/-- The files besides `own`, in ascending order. -/
def otherFiles (own : FileId) (files : List FileId) : List FileId :=
  (files.filter (· ≠ own)).foldr addFile []

/-- Room for one more entry. -/
def makeRoom (c : Cache) : Cache :=
  if c.settings.maxEntries ≤ c.size then c.sweep.2 else c

/-- Stores an entry. -/
def store (c : Cache) (node : NodeId) (cached : Cached) (generation : Nat) : Cache :=
  { c with
    entries := c.entries.insert node { cached with generation, lastUsed := c.tick }
    dependents := cached.deps.foldl (fun ds file => ds.insert (file, node)) c.dependents
    tick := c.tick + 1
    counters := { c.counters with inserts := c.counters.inserts + 1 } }

/-- Stores a type that was computed under `generation` from the trees of `files`, and says whether
it was admitted. -/
def insert (c : Cache) (node : NodeId) (ty : Ty) (generation : Nat) (files : List FileId) :
    Bool × Cache :=
  let deps := otherFiles node.file files
  if ty.hasUnknown || !c.isValid node.file generation deps then
    (false, { c with counters := { c.counters with rejected := c.counters.rejected + 1 } })
  else (true, c.makeRoom.store node ⟨ty, deps⟩ generation)

/-- Stores a type if there is one. -/
def keep (c : Cache) (node : NodeId) (ty : Option Ty) (generation : Nat) (files : List FileId) :
    Cache :=
  match ty with
  | some ty => (c.insert node ty generation files).2
  | none => c

/-- The cached type, or else the computed one, which is stored. The computation may use the cache
itself; what else it reports is handed on. -/
def getOrCompute {ρ : Type} (c : Cache) (node : NodeId)
    (compute : Cache → (Option Ty × ρ) × Cache) : (Option Ty × Option ρ) × Cache :=
  match c.fetch node with
  | (some found, c) => ((some found.ty, none), c)
  | (none, c) =>
    let ((ty, report), after) := compute c
    ((ty, some report), after.keep node ty c.generation [])

/-- As `getOrCompute`, for a computation that tells which files it read. They are handed on as they
are told, and those of a cached type as they are stored. -/
def getOrDerive {ρ : Type} (c : Cache) (node : NodeId) (generation : Nat)
    (compute : Cache → (Option Ty × List FileId × ρ) × Cache) :
    (Option Ty × List FileId × Option ρ) × Cache :=
  match c.fetch node with
  | (some found, c) => ((some found.ty, found.deps, none), c)
  | (none, c) =>
    let ((ty, files, report), c) := compute c
    ((ty, files, some report), c.keep node ty generation files)

/-! ## Calls -/

/-- A call of an engine to a cache. -/
inductive Access where
  | fetch (node : NodeId)
  | insert (node : NodeId) (ty : Ty) (generation : Nat) (files : List FileId)
  | record (name : QName)
  | indexAt (name : QName) (record : Record) (generation : Nat)

/-- What a call gives. -/
@[reducible] def Access.Answer : Access → Type
  | fetch _ => Option Cached
  | insert .. => Bool
  | record _ => Option Record
  | indexAt .. => Bool

def access (c : Cache) : (call : Access) → call.Answer × Cache
  | .fetch node => c.fetch node
  | .insert node ty generation files => c.insert node ty generation files
  | .record name => (c.record? name, c)
  | .indexAt name r generation => c.indexRecordAt name r generation

end MoveTyping.Cache
