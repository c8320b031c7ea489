import MoveTyping.Proofs.Session.Index
import MoveTyping.Proofs.Session.Queries

/-!
# Commands

All that can be asked of a session and done to it, with what the session replies. A history of a
session is a list of commands.

## Main definitions

* `Request`, `Session.serve` — the questions to a session.
* `Command`, `Session.execute`, `Session.executeAll` — the edits together with the questions.
-/

namespace MoveTyping

/-- A question to a session. -/
inductive Request where
  | types (query : Query)
  /-- The types of all expressions of a file. -/
  | fileTypes (file : FileId)
  | ability (t : Ty) (a : Ability)
  | abilities (t : Ty) (required : AbilitySet)
  /-- The violated bounds of a call. -/
  | bounds (call : NodeId)

/-- An edit, a sweep of the cache or a question. -/
inductive Command where
  | set (tree : Tree)
  | remove (file : FileId)
  | reload
  | sweep
  | ask (request : Request)

/-- What a command does to the trees. -/
def Command.edit : Command → Program → Program
  | set t, p => p.insert t
  | remove f, p => p.erase f
  | _, p => p

inductive Reply where
  | types (types : List (Option Ty))
  | fileTypes (types : List (NodeId × Ty))
  | verdict (holds : Bool)
  | violations (violations : List BoundViolation)
  /-- The number of types that were dropped. -/
  | dropped (count : Nat)
  | done
deriving DecidableEq

namespace Session

variable {s : Session} {f : FileId}

def serve (s : Session) : Request → Reply × Session
  | .types q => let (types, s) := s.answer q; (.types types, s)
  | .fileTypes f => let (types, s) := s.inferFile f; (.fileTypes types, s)
  | .ability t a => let (holds, s) := s.hasAbility t a; (.verdict holds, s)
  | .abilities t required => let (holds, s) := s.hasAbilities t required; (.verdict holds, s)
  | .bounds call => let (violations, s) := s.checkCall call; (.violations violations, s)

def execute (s : Session) : Command → Reply × Session
  | .set t => (.done, s.setFile t)
  | .remove f => let (live, s) := s.removeFile f; (.verdict live, s)
  | .reload => (.done, s.reload)
  | .sweep => let (count, s) := s.sweep; (.dropped count, s)
  | .ask request => s.serve request

/-- The replies to commands that are given one after the other. -/
def executeAll (s : Session) : List Command → List Reply × Session
  | [] => ([], s)
  | c :: cs =>
    let (first, s) := s.execute c
    let (rest, s) := s.executeAll cs
    (first :: rest, s)

theorem executeAll_cons (s : Session) (c : Command) (cs : List Command) :
    s.executeAll (c :: cs) =
      ((s.execute c).1 :: ((s.execute c).2.executeAll cs).1, ((s.execute c).2.executeAll cs).2) :=
  rfl

theorem executeAll_append (s : Session) (cs cs' : List Command) :
    (s.executeAll (cs ++ cs')).2 = ((s.executeAll cs).2.executeAll cs').2 := by
  induction cs generalizing s with
  | nil => rfl
  | cons c cs ih => exact ih (s.execute c).2

/-- Nothing is removed with a file that is not live. -/
theorem removeFile_of_notMem (hf : f ∉ s.files) : s.removeFile f = (false, s) := by
  have htree : s.sources.program.tree? f = none := by
    refine Option.eq_none_iff_forall_not_mem.2 fun t ht => hf ?_
    exact Program.mem_files.2 ⟨t, ht⟩
  simp [removeFile, Sources.remove, htree]

/-- Installing trees one after the other. -/
theorem executeAll_set (s : Session) (trees : List Tree) :
    (s.executeAll (trees.map .set)).2 = trees.foldl setFile s := by
  induction trees generalizing s with
  | nil => rfl
  | cons t trees ih => exact ih (s.setFile t)

theorem asked_serve (s : Session) (request : Request) : s.Asked (s.serve request).2 := by
  cases request with
  | types q => exact s.asked_answer q
  | fileTypes f => exact s.asked_perform _
  | ability t a => exact s.asked_perform _
  | abilities t required => exact s.asked_perform _
  | bounds call => exact s.asked_perform _

/-- Settings and library stay. -/
theorem frame_execute (s : Session) (c : Command) :
    (s.execute c).2.settings = s.settings ∧ (s.execute c).2.catalog = s.catalog ∧
      (s.execute c).2.cache.settings = s.cache.settings := by
  cases c with
  | set t =>
    obtain ⟨hsettings, hcatalog, -, -, hcache⟩ := s.setFile_frame t
    exact ⟨hsettings, hcatalog, hcache⟩
  | remove f =>
    by_cases hf : f ∈ s.files
    · have hs := reindexed_removeFile hf
      exact ⟨hs.settings, hs.catalog, hs.cacheSettings⟩
    · simp [execute, removeFile_of_notMem hf]
  | reload =>
    have hs := reindexed_reload s
    exact ⟨hs.settings, hs.catalog, hs.cacheSettings⟩
  | sweep => exact ⟨rfl, rfl, rfl⟩
  | ask request =>
    have hs := s.asked_serve request
    exact ⟨hs.settings, hs.catalog, hs.cache.settings⟩

theorem frame_executeAll (s : Session) (cs : List Command) :
    (s.executeAll cs).2.settings = s.settings ∧ (s.executeAll cs).2.catalog = s.catalog ∧
      (s.executeAll cs).2.cache.settings = s.cache.settings := by
  induction cs generalizing s with
  | nil => exact ⟨rfl, rfl, rfl⟩
  | cons c cs ih =>
    obtain ⟨hsettings, hcatalog, hcache⟩ := s.frame_execute c
    obtain ⟨hsettings', hcatalog', hcache'⟩ := ih (s.execute c).2
    exact ⟨hsettings'.trans hsettings, hcatalog'.trans hcatalog, hcache'.trans hcache⟩

theorem program_execute (s : Session) (c : Command) :
    (s.execute c).2.program = c.edit s.program := by
  cases c with
  | set t => exact (s.setFile_frame t).2.2.1
  | remove f =>
    by_cases hf : f ∈ s.files
    · exact program_removeFile hf
    · simp [execute, removeFile_of_notMem hf, Command.edit, Program.erase_of_notMem hf]
  | reload => exact congrArg Sources.program (reindexed_reload s).sources
  | sweep => rfl
  | ask request => exact congrArg Sources.program (s.asked_serve request).sources

/-- The trees of a session after a history. -/
theorem program_executeAll (s : Session) (cs : List Command) :
    (s.executeAll cs).2.program = cs.foldl (fun p c => c.edit p) s.program := by
  induction cs generalizing s with
  | nil => rfl
  | cons c cs ih =>
    rw [executeAll_cons, List.foldl_cons, ← program_execute]
    exact ih (s.execute c).2

end Session

end MoveTyping
