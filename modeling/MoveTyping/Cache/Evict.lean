import MoveTyping.Cache.Basic

/-!
# Removal from the cache

Entries leave the cache when a file that they were derived from changes, when everything is
cleared, and when a sweep shrinks the cache.
-/

namespace MoveTyping.Cache

/-! ## Edits -/

/-- A file has changed: drops the entries of its nodes and of the nodes derived from it. -/
def invalidate (c : Cache) (file : FileId) : Cache :=
  let generation := c.generation + 1
  { c with
    generation
    invalidatedAt := c.invalidatedAt.insert file generation
    entries := c.entries.filter fun node _ =>
      node.file ≠ file && !c.dependents.contains (file, node)
    dependents := c.dependents.filter (·.1 ≠ file)
    counters := { c.counters with invalidations := c.counters.invalidations + 1 } }

/-- A file is gone. -/
def retire (c : Cache) (file : FileId) : Cache :=
  let c := c.invalidate file
  { c with retired := c.retired.insert file }

/-- A file that was gone is back. -/
def revive (c : Cache) (file : FileId) : Cache := { c with retired := c.retired.filter (· ≠ file) }

/-- Everything has changed: drops all entries and all records. -/
def clear (c : Cache) : Cache :=
  let generation := c.generation + 1
  { c with
    generation
    clearedAt := generation
    entries := ∅
    dependents := []
    index := ∅
    counters := { c.counters with invalidations := c.counters.invalidations + 1 } }

/-! ## Sweeps -/

/-- Whether an entry may be served and its file is not gone. -/
def isLive (c : Cache) (node : NodeId) (e : Entry) : Bool :=
  !c.isRetired node.file && c.isValid node.file e.generation e.deps

/-- Puts a value before the first one that it precedes. -/
def place {α : Type} (precedes : α → α → Bool) (a : α) : List α → List α
  | [] => [a]
  | b :: bs => if precedes a b then a :: b :: bs else b :: place precedes a bs

/-- Puts values in order. It takes one step for each value that precedes all before it. -/
def arrange {α : Type} (precedes : α → α → Bool) (values : List α) : List α :=
  values.foldl (fun placed a => place precedes a placed) []

/-- The entries in the order of their last use. The rows of a table have the last one in front. -/
def byUse (entries : Table NodeId Entry) : List (NodeId × Entry) :=
  arrange (fun a b => a.2.lastUsed < b.2.lastUsed) entries.rows

/-- The `count` entries that were not used for the longest time. -/
def oldest (entries : Table NodeId Entry) (count : Nat) : List NodeId :=
  ((byUse entries).take count).map Prod.fst

/-- Keeps the `low` entries that were used last. -/
def shrink (entries : Table NodeId Entry) (low : Nat) : Table NodeId Entry :=
  if entries.size ≤ low then entries
  else
    let victims := oldest entries (entries.size - low)
    entries.filter fun node _ => !victims.contains node

/-- Drops the entries that are not live, and then the oldest ones down to the low watermark. Gives
the number of entries dropped. -/
def sweep (c : Cache) : Nat × Cache :=
  let live := c.entries.filter c.isLive
  let entries := shrink live c.settings.lowWatermark
  let dropped := c.entries.size - entries.size
  (dropped,
    { c with
      entries
      dependents := c.dependents.filter fun d => live.contains d.2
      counters := { c.counters with
        evictions := c.counters.evictions + dropped
        sweeps := c.counters.sweeps + 1 } })

end MoveTyping.Cache
