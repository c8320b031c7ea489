import MoveTyping.Address
import MoveTyping.Table
import MoveTyping.Tree.Basic

/-!
# Programs

A program is the set of live trees, at most one for each file. The trees are kept in the order of
their files, so two programs with the same trees are equal. Look-ups across files compare addresses
by their normal form.

`Sources` is the set as a session edits it: installing a tree gives it a new revision.
-/

namespace MoveTyping

structure Program where
  trees : List Tree
  sorted : trees.Pairwise fun t u => t.file < u.file

namespace Program

def empty : Program := ⟨[], .nil⟩

instance : Inhabited Program := ⟨empty⟩

/-- Installs a tree in the place of the one its file had. -/
def insert (p : Program) (t : Tree) : Program where
  trees := p.trees.filter (·.file < t.file) ++ t :: p.trees.filter (t.file < ·.file)
  sorted := by
    refine List.pairwise_append.2 ⟨p.sorted.filter _, ?_, ?_⟩
    · exact List.pairwise_cons.2 ⟨by simp, p.sorted.filter _⟩
    · intro u hu v hv
      have hu : u.file < t.file := by simpa using (List.mem_filter.1 hu).2
      rcases List.mem_cons.1 hv with rfl | hv
      · exact hu
      · have hv : t.file < v.file := by simpa using (List.mem_filter.1 hv).2
        exact Nat.lt_trans hu hv

def erase (p : Program) (file : FileId) : Program :=
  ⟨p.trees.filter (·.file ≠ file), p.sorted.filter _⟩

def tree? (p : Program) (file : FileId) : Option Tree := p.trees.find? (·.file = file)

theorem tree?_insert (p : Program) (t : Tree) (file : FileId) :
    (p.insert t).tree? file = if file = t.file then some t else p.tree? file := by
  simp only [tree?, insert, List.find?_append, List.find?_filter, List.find?_cons]
  split <;> grind [List.find?_eq_none]

theorem tree?_erase (p : Program) (gone file : FileId) :
    (p.erase gone).tree? file = if file = gone then none else p.tree? file := by
  simp only [tree?, erase, List.find?_filter]
  split <;> grind [List.find?_eq_none]

/-- The live files, in order. -/
def files (p : Program) : List FileId := p.trees.map (·.file)

/-! ## Nodes -/

def kind? (p : Program) (id : NodeId) : Option NodeKind := (p.tree? id.file).bind (·.kind? id)

def parent? (p : Program) (id : NodeId) : Option NodeId := (p.tree? id.file).bind (·.parent? id)

def contains (p : Program) (id : NodeId) : Bool := (p.tree? id.file).any (·.contains id)

/-- A slice of a file's links. -/
def list (p : Program) (file : FileId) (s : Slice) : List NodeId :=
  ((p.tree? file).map (·.list s)).getD []

/-! ## Modules -/

/-- The modules at the top of all files, in the order of the files. -/
def modules (p : Program) : List NodeId := p.trees.flatMap Tree.modules

/-- Address and name of a module. -/
def identity? (p : Program) (module : NodeId) : Option (String × String) :=
  match p.kind? module with
  | some (.module address name _) => some (address, name)
  | _ => none

/-- The items of a module. -/
def items (p : Program) (module : NodeId) : List NodeId :=
  match p.kind? module with
  | some (.module _ _ items) => p.list module.file items
  | _ => []

/-- The module of this name at this address. Without an address any will do: it is the first one,
which has no meaning if several files have modules of the name. -/
def findModule? (p : Program) (aliases : Aliases) (address : Option String) (module : String) :
    Option NodeId :=
  p.modules.find? fun id =>
    (p.identity? id).any fun (declared, name) =>
      name = module && address.all fun a => aliases.normalize declared = aliases.normalize a

/-- The first struct of this name in a module. -/
def findStruct? (p : Program) (aliases : Aliases) (address : Option String)
    (module name : String) : Option NodeId := do
  let module ← p.findModule? aliases address module
  (p.items module).find? fun item =>
    match p.kind? item with
    | some (.struct declared ..) => declared = name
    | _ => false

end Program

/-- The live trees with the revision of each, and the next file and revision to give out. -/
structure Sources where
  program : Program
  revisions : Table FileId Nat
  nextFile : FileId
  nextRevision : Nat

namespace Sources

def initial : Sources := ⟨.empty, ∅, 0, 1⟩

instance : Inhabited Sources := ⟨initial⟩

/-- A file that was not given out before. -/
def newFile (s : Sources) : FileId × Sources := (s.nextFile, { s with nextFile := s.nextFile + 1 })

/-- Installs a tree and gives its revision. -/
def install (s : Sources) (t : Tree) : Nat × Sources :=
  (s.nextRevision,
    { s with
      program := s.program.insert t
      revisions := s.revisions.insert t.file s.nextRevision
      nextRevision := s.nextRevision + 1 })

/-- Drops a file, and says whether it was live. -/
def remove (s : Sources) (file : FileId) : Bool × Sources :=
  if (s.program.tree? file).isSome then
    (true, { s with program := s.program.erase file, revisions := s.revisions.erase file })
  else (false, s)

end Sources

end MoveTyping
