import MoveTyping.Record
import MoveTyping.Settings
import MoveTyping.Tree.Node

/-!
# The type cache

Types of nodes, each with the files it was derived from, and an index of struct records by name.

Time is counted in generations. An edit starts a new generation and marks the file, or everything,
as changed in it. A type is stored under the generation that was current before its trees were
read, and it is valid as long as none of its files has changed in a later one. So a type that was
computed while a file changed is never served.

Apart from that every use of an entry has its own tick, by which a sweep finds the entries that were
not used for the longest time. Generations and ticks are words of 64 bits, which are taken not to
overflow.

## Main definitions

* `Cache`, `Cache.Entry` — the cache and what it holds for a node.
* `Cache.isValid` — whether a type may still be served.
* `Cache.indexRecord`, `Cache.indexRecordAt`, `Cache.unindex` — the index of records.
-/

namespace MoveTyping

/-- A type and the files it was derived from besides the node's own, in ascending order. -/
structure Cached where
  ty : Ty
  deps : List FileId
deriving DecidableEq, Repr

/-- How often each thing happened to a cache. -/
structure CacheCounters where
  hits : Nat := 0
  misses : Nat := 0
  inserts : Nat := 0
  /-- Results that were not stored. -/
  rejected : Nat := 0
  evictions : Nat := 0
  invalidations : Nat := 0
  sweeps : Nat := 0
deriving DecidableEq, Repr

/-- Look-ups served from the cache, in percent. -/
def CacheCounters.hitRate (s : CacheCounters) : Nat :=
  if s.hits + s.misses = 0 then 0 else s.hits * 100 / (s.hits + s.misses)

structure Cache.Entry extends Cached where
  generation : Nat
  /-- The tick of the last use. -/
  lastUsed : Nat
deriving DecidableEq, Repr

structure Cache where
  settings : CacheSettings
  entries : Table NodeId Cache.Entry := ∅
  /-- The generation in which each file changed last. -/
  invalidatedAt : Table FileId Nat := ∅
  /-- The files that are gone. -/
  retired : List FileId := []
  /-- Pairs of a file and a node of another file whose type was derived from it. -/
  dependents : List (FileId × NodeId) := []
  index : Table QName Record := ∅
  generation : Nat := 1
  /-- The generation in which everything changed last. -/
  clearedAt : Nat := 0
  tick : Nat := 0
  counters : CacheCounters := {}

namespace Cache

def ofSettings (settings : CacheSettings) : Cache := { settings }

instance : Inhabited Cache := ⟨ofSettings {}⟩

def size (c : Cache) : Nat := c.entries.size

/-- Whether a file has not changed after `generation`. -/
def isCurrent (c : Cache) (generation : Nat) (file : FileId) : Bool :=
  (c.invalidatedAt.get? file).all (· ≤ generation)

/-- Whether a type of a node in `file`, derived from `deps` under `generation`, may be served. -/
def isValid (c : Cache) (file : FileId) (generation : Nat) (deps : List FileId) : Bool :=
  c.clearedAt ≤ generation && (file :: deps).all (c.isCurrent generation)

def isRetired (c : Cache) (file : FileId) : Bool := c.retired.contains file

/-! ## The index of records -/

def record? (c : Cache) (name : QName) : Option Record := c.index.get? name

def indexRecord (c : Cache) (name : QName) (r : Record) : Cache :=
  { c with index := c.index.insert name r }

/-- Indexes a record that was read under `generation`, unless an edit has come in between. -/
def indexRecordAt (c : Cache) (name : QName) (r : Record) (generation : Nat) : Bool × Cache :=
  if c.generation = generation then (true, c.indexRecord name r) else (false, c)

/-- Drops a record, and says whether there was one. -/
def unindex (c : Cache) (name : QName) : Bool × Cache :=
  (c.index.contains name, { c with index := c.index.erase name })

end Cache

end MoveTyping
