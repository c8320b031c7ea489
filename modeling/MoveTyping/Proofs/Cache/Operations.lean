import MoveTyping.Proofs.Cache.Served

/-!
# Operations on a cache

All that can be done to a cache, one operation after the other. Most operations are one call, which
is made in one go. A look-up with a computation for what is missing lets the computation use the
cache before its result is stored, so operations are nested. What happens to the cache is
nevertheless one call after the other: a look-up, then the calls of the computation if nothing was
served, then the insertion of its result.

## Main definitions

* `Cache.Upkeep`, `Cache.maintain` — the calls that keep a cache up with the program.
* `Cache.Call`, `Cache.make`, `Cache.makeAll` — all calls and what they do.
* `Cache.Operation`, `Cache.perform`, `Cache.performAll` — the operations and what they do.
* `Cache.calls`, `Cache.callsAll` — the calls that operations consist of.
* `Cache.Invariant` — a property that every call keeps.
-/

namespace MoveTyping.Cache

/-! ## Calls -/

/-- A call that is made for a change of the program, or to save room. -/
inductive Upkeep where
  | invalidate (file : FileId)
  | retire (file : FileId)
  | revive (file : FileId)
  | clear
  | sweep
  | index (name : QName) (record : Record)
  | unindex (name : QName)

def maintain (c : Cache) : Upkeep → Cache
  | .invalidate file => c.invalidate file
  | .retire file => c.retire file
  | .revive file => c.revive file
  | .clear => c.clear
  | .sweep => c.sweep.2
  | .index name record => c.indexRecord name record
  | .unindex name => (c.unindex name).2

inductive Call where
  | access (call : Access)
  | upkeep (call : Upkeep)

def make (c : Cache) : Call → Cache
  | .access call => (c.access call).2
  | .upkeep call => c.maintain call

def makeAll (c : Cache) (calls : List Call) : Cache := calls.foldl make c

@[simp] theorem makeAll_nil (c : Cache) : c.makeAll [] = c := rfl

@[simp] theorem makeAll_cons (c : Cache) (call : Call) (calls : List Call) :
    c.makeAll (call :: calls) = (c.make call).makeAll calls := rfl

@[simp] theorem makeAll_append (c : Cache) (calls calls' : List Call) :
    c.makeAll (calls ++ calls') = (c.makeAll calls).makeAll calls' := List.foldl_append

/-! ## Operations -/

/-- What can be done to a cache. A computation is given by its result and by what it does to the
cache, and is not run if the node is cached. -/
inductive Operation where
  | call (call : Call)
  | compute (node : NodeId) (ty : Option Ty) (during : List Operation)
  /-- A computation that tells which files it read. -/
  | derive (node : NodeId) (generation : Nat) (ty : Option Ty) (files : List FileId)
    (during : List Operation)

mutual

def perform (c : Cache) : Operation → Cache
  | .call call => c.make call
  | .compute node ty during =>
    (c.getOrCompute node fun c => ((ty, ()), c.performAll during)).2
  | .derive node generation ty files during =>
    (c.getOrDerive node generation fun c => ((ty, files, ()), c.performAll during)).2

def performAll (c : Cache) : List Operation → Cache
  | [] => c
  | op :: ops => (c.perform op).performAll ops

end

theorem performAll_append (c : Cache) (ops ops' : List Operation) :
    c.performAll (ops ++ ops') = (c.performAll ops).performAll ops' := by
  induction ops generalizing c with
  | nil => rfl
  | cons op ops ih => exact ih (c.perform op)

/-- The insertion of the result of a computation. -/
def keepCalls (node : NodeId) (ty : Option Ty) (generation : Nat) (files : List FileId) :
    List Call := (ty.map fun ty => .access (.insert node ty generation files)).toList

mutual

/-- The calls that an operation on the cache consists of. -/
def calls (c : Cache) : Operation → List Call
  | .call call => [call]
  | .compute node ty during =>
    .access (.fetch node) ::
      if (c.served? node).isSome then []
      else (c.fetch node).2.callsAll during ++ keepCalls node ty (c.fetch node).2.generation []
  | .derive node generation ty files during =>
    .access (.fetch node) ::
      if (c.served? node).isSome then []
      else (c.fetch node).2.callsAll during ++ keepCalls node ty generation files

def callsAll (c : Cache) : List Operation → List Call
  | [] => []
  | op :: ops => c.calls op ++ (c.perform op).callsAll ops

end

theorem makeAll_keepCalls (c : Cache) (node : NodeId) (ty : Option Ty) (generation : Nat)
    (files : List FileId) :
    c.makeAll (keepCalls node ty generation files) = c.keep node ty generation files := by
  cases ty <;> rfl

/-- A look-up with a computation makes the look-up, and all the rest only if nothing is served. -/
theorem getOrCompute_eq {ρ : Type} (c : Cache) (node : NodeId)
    (compute : Cache → (Option Ty × ρ) × Cache) :
    (c.getOrCompute node compute).2 =
      if (c.served? node).isSome then (c.fetch node).2
      else (compute (c.fetch node).2).2.keep node (compute (c.fetch node).2).1.1
        (c.fetch node).2.generation [] := by
  unfold getOrCompute served?
  obtain ⟨found, c'⟩ := c.fetch node
  cases found <;> rfl

theorem getOrDerive_eq {ρ : Type} (c : Cache) (node : NodeId) (generation : Nat)
    (compute : Cache → (Option Ty × List FileId × ρ) × Cache) :
    (c.getOrDerive node generation compute).2 =
      if (c.served? node).isSome then (c.fetch node).2
      else (compute (c.fetch node).2).2.keep node (compute (c.fetch node).2).1.1 generation
        (compute (c.fetch node).2).1.2.1 := by
  unfold getOrDerive served?
  obtain ⟨found, c'⟩ := c.fetch node
  cases found <;> rfl

mutual

theorem makeAll_calls : ∀ (op : Operation) (c : Cache), c.makeAll (c.calls op) = c.perform op
  | .call _, _ => by rw [calls, perform]; rfl
  | .compute node ty during, c => by
    rw [calls, perform, getOrCompute_eq]
    split
    · rfl
    · rw [makeAll_cons, makeAll_append, makeAll_keepCalls]
      exact congrArg (Cache.keep · ..) (makeAll_callsAll during _)
  | .derive node generation ty files during, c => by
    rw [calls, perform, getOrDerive_eq]
    split
    · rfl
    · rw [makeAll_cons, makeAll_append, makeAll_keepCalls]
      exact congrArg (Cache.keep · ..) (makeAll_callsAll during _)

/-- Operations do to a cache what their calls do. -/
theorem makeAll_callsAll : ∀ (ops : List Operation) (c : Cache),
    c.makeAll (c.callsAll ops) = c.performAll ops
  | [], _ => by rw [callsAll, performAll]; rfl
  | op :: ops, c => by
    rw [callsAll, performAll, makeAll_append, makeAll_calls op c, makeAll_callsAll ops]

end

/-! ## Invariants -/

/-- The calls keep the property. Those that change the records have nothing else to do with it. -/
structure Invariant (P : Cache → Prop) : Prop where
  fetch : ∀ {c} node, P c → P (c.fetch node).2
  insert : ∀ {c} node ty generation files, P c → P (c.insert node ty generation files).2
  invalidate : ∀ {c} file, P c → P (c.invalidate file)
  retire : ∀ {c} file, P c → P (c.retire file)
  revive : ∀ {c} file, P c → P (c.revive file)
  clear : ∀ {c}, P c → P c.clear
  sweep : ∀ {c}, P c → P c.sweep.2
  index : ∀ {c} index, P c → P { c with index }

namespace Invariant

variable {P : Cache → Prop} {c : Cache}

theorem access (h : Invariant P) (hc : P c) (call : Access) : P (c.access call).2 := by
  cases call with
  | fetch node => exact h.fetch node hc
  | insert node ty generation files => exact h.insert node ty generation files hc
  | record name => exact hc
  | indexAt name record generation =>
    obtain ⟨index, hindex⟩ := c.exists_indexRecordAt name record generation
    rw [Cache.access, hindex]
    exact h.index index hc

theorem maintain (h : Invariant P) (hc : P c) (call : Upkeep) : P (c.maintain call) := by
  cases call with
  | invalidate file => exact h.invalidate file hc
  | retire file => exact h.retire file hc
  | revive file => exact h.revive file hc
  | clear => exact h.clear hc
  | sweep => exact h.sweep hc
  | index name record => exact h.index _ hc
  | unindex name => exact h.index _ hc

theorem makeAll (h : Invariant P) (hc : P c) (calls : List Call) : P (c.makeAll calls) := by
  induction calls generalizing c with
  | nil => exact hc
  | cons call calls ih =>
    refine ih ?_
    cases call with
    | access call => exact h.access hc call
    | upkeep call => exact h.maintain hc call

/-- What the calls keep holds after any operations. -/
theorem performAll (h : Invariant P) (hc : P c) (ops : List Operation) : P (c.performAll ops) := by
  rw [← makeAll_callsAll]
  exact h.makeAll hc _

end Invariant

end MoveTyping.Cache
