import MoveTyping.Cache.Lookup

/-!
# Tasks

Engines may work side by side on one cache. What an engine does is a task: a program that comes to
the cache, and to the counters that the engines have in common, by one action after the other, and
keeps all else to itself. Each action is done in one go. Between two actions of a task any actions
of other tasks may come.

## Main definitions

* `Shared` — what tasks have in common.
* `Action`, `Shared.act` — the actions and what they do.
* `Task` — the programs, `Task.run` — a task by itself.
* `Pool.run` — tasks side by side, which take turns as a schedule says.
-/

namespace MoveTyping

/-- How often each thing happened in an engine. -/
structure EngineCounters where
  /-- Questions for a type, nested ones included. -/
  queries : Nat := 0
  /-- Questions that the cache could not answer. -/
  computed : Nat := 0
  /-- Questions cut off because the node was being inferred already. -/
  cycles : Nat := 0
  /-- Questions cut off because they were too deep. -/
  depthCutoffs : Nat := 0
deriving DecidableEq, Repr

instance : Add EngineCounters where
  add a b := ⟨a.queries + b.queries, a.computed + b.computed, a.cycles + b.cycles,
    a.depthCutoffs + b.depthCutoffs⟩

/-- The cache, and the counters of all engines that work on it, added up. -/
structure Shared where
  cache : Cache
  counters : EngineCounters := {}

/-! ## Actions -/

/-- A call to the cache, or something to count. -/
inductive Action where
  | access (call : Cache.Access)
  | count (added : EngineCounters)

/-- What a task is told about its action. -/
@[reducible] def Action.Answer : Action → Type
  | access call => call.Answer
  | count _ => Unit

def Shared.act (s : Shared) : (a : Action) → a.Answer × Shared
  | .access call => let (answer, cache) := s.cache.access call; (answer, { s with cache })
  | .count added => ((), { s with counters := s.counters + added })

/-! ## Programs -/

inductive Task (α : Type) where
  | done (value : α)
  | act (action : Action) (next : action.Answer → Task α)

namespace Task

variable {α β : Type}

def bind : Task α → (α → Task β) → Task β
  | done a, f => f a
  | act action next, f => act action fun answer => (next answer).bind f

instance : Monad Task where
  pure := done
  bind := bind

def fetch (node : NodeId) : Task (Option Cached) := act (.access (.fetch node)) done

/-- Stores a type if there is one. -/
def keep (node : NodeId) (ty : Option Ty) (generation : Nat) (files : List FileId) : Task Unit :=
  match ty with
  | some ty => act (.access (.insert node ty generation files)) fun _ => done ()
  | none => done ()

def record? (name : QName) : Task (Option Record) := act (.access (.record name)) done

def index (name : QName) (r : Record) (generation : Nat) : Task Unit :=
  act (.access (.indexAt name r generation)) fun _ => done ()

def count (added : EngineCounters) : Task Unit := act (.count added) done

/-- The cached type with its files, or else the computed one, which is stored. -/
def getOrDerive (node : NodeId) (generation : Nat) (compute : Task (Option Ty × List FileId)) :
    Task (Option Ty × List FileId) := do
  match ← fetch node with
  | some found => return (some found.ty, found.deps)
  | none =>
    let (ty, files) ← compute
    keep node ty generation files
    return (ty, files)

/-- A task by itself. -/
def run : Task α → Shared → α × Shared
  | done a, s => (a, s)
  | act action next, s =>
    let (answer, s) := s.act action
    (next answer).run s

/-- The next action of a task, if there is one. -/
def step : Task α → Shared → Task α × Shared
  | done a, s => (done a, s)
  | act action next, s =>
    let (answer, s) := s.act action
    (next answer, s)

end Task

/-! ## Tasks side by side -/

structure Pool (α : Type) where
  tasks : List (Task α)
  shared : Shared

namespace Pool

variable {α : Type}

/-- The turn of one of the tasks, given by its position. -/
def turn (p : Pool α) (k : Nat) : Pool α :=
  match p.tasks[k]? with
  | some task =>
    let (task, shared) := task.step p.shared
    ⟨p.tasks.set k task, shared⟩
  | none => p

/-- Brings some tasks to their ends, one after the other. -/
def finish : List (Task α) → Shared → List α × Shared
  | [], s => ([], s)
  | task :: tasks, s =>
    let (a, s) := task.run s
    let (as, s) := finish tasks s
    (a :: as, s)

/-- The tasks take turns as the schedule says. What is left at its end is done one after the other,
so an empty schedule is the sequential run. -/
def run (p : Pool α) (schedule : List Nat) : List α × Shared :=
  let p := schedule.foldl turn p
  finish p.tasks p.shared

end Pool

end MoveTyping
