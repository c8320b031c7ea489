import MoveTyping.Infer.Node
import MoveTyping.Infer.Task

/-!
# The engine

The engine runs the rules of inference. It consults the cache for every type it is asked for, and
runs the rule of the node when the cache does not know. A node whose type is being inferred already
is unknown to whoever asks for it again, and so is a node that is asked for too deep. The files that
a computation reads, itself or through what it asks for, are stored with its result.

## Main definitions

* `Engine` — the state of the engine.
* `Inference` — what the engine works on: an environment, the generation of the cache before the
  environment was read, and a bound on the depth.
* `Inference.infer` — the type of a node.
* `Inference.perform` — the result of any rule.
* `Inference.task` — the same for an engine that is not alone.
-/

namespace MoveTyping

/-- What an engine keeps to itself. -/
structure Progress where
  /-- The nodes whose types are being inferred, innermost first. -/
  active : List NodeId := []
  /-- The files that the innermost computation has read. -/
  files : List FileId := []

namespace Progress

/-- The current computation reads a file. -/
def note (file : FileId) (p : Progress) : Progress :=
  if p.files.contains file then p else { p with files := p.files ++ [file] }

def noteAll (files : List FileId) (p : Progress) : Progress :=
  files.foldl (fun p file => p.note file) p

/-- Begins the computation of a node. -/
def enter (p : Progress) (node : NodeId) : Progress := { active := node :: p.active }

end Progress

structure Engine extends Shared, Progress

namespace Engine

variable {α : Type}

def ofCache (cache : Cache) : Engine := { cache }

/-- Runs what the engine does by itself. -/
def run (e : Engine) (task : Progress → Task (α × Progress)) : α × Engine :=
  let ((a, progress), shared) := (task e.toProgress).run e.toShared
  (a, ⟨shared, progress⟩)

end Engine

structure Inference where
  env : Env
  generation : Nat
  limit : DepthLimit

namespace Inference

variable {α : Type}

/-- The record of a struct: the indexed one, or that of a struct of the program, which is indexed
then, or that of the library. -/
def recordTask (i : Inference) (name : QName) : Task (Option Record) := do
  match ← Task.record? name with
  | some r => return some r
  | none =>
    match i.env.findStruct? name with
    | some decl =>
      match i.env.structRecord? decl with
      | some r =>
        Task.index name r i.generation
        return some r
      | none => return none
    | none => return i.env.catalog.record? name

/-- Runs a rule, given how types are inferred. -/
def ruleTask (i : Inference) (infer : NodeId → Progress → Task (Option Ty × Progress)) :
    Rule α → Progress → Task (α × Progress)
  | .done a, p => return (a, p)
  | .ask node next, p => do
    let (t, p) ← infer node p
    i.ruleTask infer (next t) p
  | .askRecord name next, p => do
    let r ← i.recordTask name
    i.ruleTask infer (next r) p
  | .read file next, p => i.ruleTask infer next (p.note file)

/-- A question that is cut off. -/
def cutOff (p : Progress) (added : EngineCounters) : Task (Option Ty × Progress) := do
  Task.count added
  return (some .unknown, p)

/-- The cached type of a node, or else that of its rule, given how types are inferred. -/
def deriveWith (i : Inference) (infer : NodeId → Progress → Task (Option Ty × Progress))
    (node : NodeId) (p : Progress) : Task (Option Ty × Progress) := do
  let (ty, files) ← Task.getOrDerive node i.generation do
    Task.count { computed := 1 }
    let (ty, inner) ← i.ruleTask infer (i.env.rule node) (p.enter node)
    return (ty, inner.files)
  return (ty, (p.note node.file).noteAll files)

/-- The type of a node, with at most `depth` nested computations. -/
def typeTask (i : Inference) : (depth : Nat) → NodeId → Progress → Task (Option Ty × Progress)
  | depth, node, p => do
    Task.count { queries := 1 }
    if !i.env.program.contains node then return (none, p)
    else if p.active.contains node then cutOff p { cycles := 1 }
    else match depth with
    | 0 => cutOff p { depthCutoffs := 1 }
    | depth + 1 => i.deriveWith (i.typeTask depth) node p

/-- The depth that is left to an engine. -/
def depthLeft (i : Inference) (e : Engine) : Nat := i.limit.limit - e.active.length

/-- The result of a rule. -/
def perform (i : Inference) (rule : Rule α) (e : Engine) : α × Engine :=
  e.run (i.ruleTask (i.typeTask (i.depthLeft e)) rule)

/-- The type of a node. Nodes outside the program and nodes of a kind without a type have none. -/
def infer (i : Inference) (node : NodeId) (e : Engine) : Option Ty × Engine :=
  i.perform (.typeOf? node) e

/-- What a new engine does for the result of a rule. -/
def task (i : Inference) (rule : Rule α) : Task α := do
  let (a, _) ← i.ruleTask (i.typeTask i.limit.limit) rule {}
  return a

end Inference

end MoveTyping
