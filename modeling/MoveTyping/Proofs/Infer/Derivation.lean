import Mathlib.Data.Finset.Lattice.Lemmas
import MoveTyping.Infer.Node

/-!
# Derivations

The type of a node as its rule defines it, with no cache and no bound on the depth: every question
of the rule is answered by the derivation of the node that it asks for. A derivation is a finite
tree, so a node that depends on itself has none. Besides the type it gives the files that it reads,
the records that it asks for and the nodes that it goes through.

The records of structs are a parameter here, since a session may keep records that the trees do not
declare any more.

## Main definitions

* `Rule.eval?` — the result of a rule, given the types of the nodes it asks for.
* `Env.derive?` — the derivation of a node, of a given height.
* `Env.Derives`, `Env.Evaluates` — the derivations of nodes and rules, of any height.
* `Rule.Yields` — what a rule gives when the nodes it asks for have the types of some relation.
* `Env.Typing` — the relations that follow the rules; `Env.exactTyping` and `Env.coveredTyping` are
  those of derivations.
-/

namespace MoveTyping

variable {α β : Type}

/-- What a derivation reads and goes through. -/
structure Trace where
  files : Finset FileId := ∅
  records : Finset QName := ∅
  nodes : Finset NodeId := ∅

namespace Trace

def union (u v : Trace) : Trace := ⟨u.files ∪ v.files, u.records ∪ v.records, u.nodes ∪ v.nodes⟩

def addFile (u : Trace) (file : FileId) : Trace := { u with files := insert file u.files }

def addRecord (u : Trace) (name : QName) : Trace := { u with records := insert name u.records }

def addNode (u : Trace) (node : NodeId) : Trace :=
  { u with files := insert node.file u.files, nodes := insert node u.nodes }

end Trace

/-! ## Rules -/

namespace Rule

/-- The result of a rule, if all nodes that it asks for have a type. -/
def eval? (type : NodeId → Option (Option Ty × Trace)) (record : QName → Option Record) :
    Rule α → Option (α × Trace)
  | done a => some (a, {})
  | ask node next => do
    let (t, u) ← type node
    let (a, v) ← eval? type record (next t)
    return (a, u.union v)
  | askRecord name next => do
    let (a, v) ← eval? type record (next (record name))
    return (a, v.addRecord name)
  | read file next => do
    let (a, v) ← eval? type record next
    return (a, v.addFile file)

variable {type type' : NodeId → Option (Option Ty × Trace)} {record : QName → Option Record}

theorem eval?_ask_eq_some {node : NodeId} {next : Option Ty → Rule α} {a : α} {w : Trace} :
    (ask node next).eval? type record = some (a, w) ↔ ∃ t u v, type node = some (t, u) ∧
      (next t).eval? type record = some (a, v) ∧ w = u.union v := by
  simp only [eval?, Option.bind_eq_bind, Option.bind_eq_some_iff, Option.pure_def,
    Option.some.injEq, Prod.mk.injEq, Prod.exists]
  grind

theorem eval?_askRecord_eq_some {name : QName} {next : Option Record → Rule α} {a : α}
    {w : Trace} :
    (askRecord name next).eval? type record = some (a, w) ↔ ∃ v,
      (next (record name)).eval? type record = some (a, v) ∧ w = v.addRecord name := by
  simp only [eval?, Option.bind_eq_bind, Option.bind_eq_some_iff, Option.pure_def,
    Option.some.injEq, Prod.mk.injEq, Prod.exists]
  grind

theorem eval?_read_eq_some {file : FileId} {next : Rule α} {a : α} {w : Trace} :
    (read file next).eval? type record = some (a, w) ↔ ∃ v,
      next.eval? type record = some (a, v) ∧ w = v.addFile file := by
  simp only [eval?, Option.bind_eq_bind, Option.bind_eq_some_iff, Option.pure_def,
    Option.some.injEq, Prod.mk.injEq, Prod.exists]
  grind

theorem eval?_mono (h : ∀ n r, type n = some r → type' n = some r) {rule : Rule α} {r : α × Trace}
    (hr : rule.eval? type record = some r) : rule.eval? type' record = some r := by
  induction rule generalizing r with
  | done a => exact hr
  | ask node next ih =>
    obtain ⟨t, u, v, ht, hv, hw⟩ := eval?_ask_eq_some.1 hr
    exact eval?_ask_eq_some.2 ⟨t, u, v, h node _ ht, ih t hv, hw⟩
  | askRecord name next ih =>
    obtain ⟨v, hv, hw⟩ := eval?_askRecord_eq_some.1 hr
    exact eval?_askRecord_eq_some.2 ⟨v, ih (record name) hv, hw⟩
  | read file next ih =>
    obtain ⟨v, hv, hw⟩ := eval?_read_eq_some.1 hr
    exact eval?_read_eq_some.2 ⟨v, ih hv, hw⟩

/-- The results of a rule, and the files it comes to read, when the nodes it asks for have the types
that a relation allows. -/
inductive Yields (T : NodeId → Option Ty → Finset FileId → Prop) (record : QName → Option Record) :
    Rule α → α → Finset FileId → Prop
  | done (a : α) : Yields T record (done a) a ∅
  | ask {node : NodeId} {next : Option Ty → Rule α} {t : Option Ty} {a : α}
      {F G : Finset FileId} (ht : T node t F) (hnext : Yields T record (next t) a G) :
      Yields T record (ask node next) a (F ∪ G)
  | askRecord {name : QName} {next : Option Record → Rule α} {a : α} {G : Finset FileId}
      (hnext : Yields T record (next (record name)) a G) : Yields T record (askRecord name next) a G
  | read {file : FileId} {next : Rule α} {a : α} {G : Finset FileId}
      (hnext : Yields T record next a G) : Yields T record (read file next) a (insert file G)

end Rule

/-! ## Nodes -/

namespace Env

variable {env : Env} {record : QName → Option Record}

/-- The type of a node by a derivation of at most a given height. Nodes outside the program have no
type, and nothing is read to see that. -/
def derive? (env : Env) (record : QName → Option Record) :
    Nat → NodeId → Option (Option Ty × Trace)
  | height, node =>
    if !env.program.contains node then some (none, {})
    else match height with
    | 0 => none
    | height + 1 =>
      ((env.rule node).eval? (env.derive? record height) record).map fun (t, u) =>
        (t, u.addNode node)

theorem derive?_of_not_contains {height : Nat} {n : NodeId} (h : env.program.contains n = false) :
    env.derive? record height n = some (none, {}) := by
  rw [derive?.eq_def]
  simp [h]

theorem derive?_zero {n : NodeId} (h : env.program.contains n = true) :
    env.derive? record 0 n = none := by
  rw [derive?.eq_def]
  simp [h]

theorem derive?_succ_eq_some {height : Nat} {n : NodeId} (h : env.program.contains n = true)
    {t : Option Ty} {w : Trace} :
    env.derive? record (height + 1) n = some (t, w) ↔ ∃ u,
      (env.rule n).eval? (env.derive? record height) record = some (t, u) ∧ w = u.addNode n := by
  rw [derive?.eq_def]
  simp only [h, Bool.not_true, Bool.false_eq_true, ↓reduceIte, Option.map_eq_some_iff,
    Prod.mk.injEq, Prod.exists]
  grind

theorem derive?_succ {height : Nat} {n : NodeId} {r : Option Ty × Trace}
    (h : env.derive? record height n = some r) : env.derive? record (height + 1) n = some r := by
  induction height generalizing n r with
  | zero =>
    cases hn : env.program.contains n with
    | false => simpa [derive?_of_not_contains hn] using h
    | true => simp [derive?_zero hn] at h
  | succ height ih =>
    cases hn : env.program.contains n with
    | false => simpa [derive?_of_not_contains hn] using h
    | true =>
      obtain ⟨u, hu, hw⟩ := (derive?_succ_eq_some hn).1 h
      exact (derive?_succ_eq_some hn).2 ⟨u, Rule.eval?_mono (fun _ _ => ih) hu, hw⟩

theorem derive?_mono {height height' : Nat} (hle : height ≤ height') {n : NodeId}
    {r : Option Ty × Trace} (h : env.derive? record height n = some r) :
    env.derive? record height' n = some r := by
  induction hle with
  | refl => exact h
  | step _ ih => exact derive?_succ ih

/-- A node has a type by a derivation. -/
def Derives (env : Env) (record : QName → Option Record) (n : NodeId) (t : Option Ty) (u : Trace) :
    Prop :=
  ∃ height, env.derive? record height n = some (t, u)

/-- A node has at most one derivation. -/
theorem Derives.unique {n : NodeId} {t t' : Option Ty} {u u' : Trace}
    (h : env.Derives record n t u) (h' : env.Derives record n t' u') : t = t' ∧ u = u' := by
  obtain ⟨k, hk⟩ := h
  obtain ⟨k', hk'⟩ := h'
  have hk := derive?_mono (Nat.le_max_left k k') hk
  have hk' := derive?_mono (Nat.le_max_right k k') hk'
  rw [hk] at hk'
  exact Prod.mk.inj (Option.some.inj hk')

/-- A rule has a value by derivations of the nodes that it asks for. -/
def Evaluates (env : Env) (record : QName → Option Record) (rule : Rule α) (a : α) (u : Trace) :
    Prop :=
  ∃ height, rule.eval? (env.derive? record height) record = some (a, u)

theorem evaluates_ask {node : NodeId} {next : Option Ty → Rule α} {a : α} {w : Trace} :
    env.Evaluates record (.ask node next) a w ↔ ∃ t u v, env.Derives record node t u ∧
      env.Evaluates record (next t) a v ∧ w = u.union v := by
  constructor
  · rintro ⟨k, hk⟩
    obtain ⟨t, u, v, hu, hv, hw⟩ := Rule.eval?_ask_eq_some.1 hk
    exact ⟨t, u, v, ⟨k, hu⟩, ⟨k, hv⟩, hw⟩
  · rintro ⟨t, u, v, ⟨k, hu⟩, ⟨k', hv⟩, hw⟩
    -- the questions of one rule need derivations of one height
    refine ⟨max k k', Rule.eval?_ask_eq_some.2 ⟨t, u, v, ?_, ?_, hw⟩⟩
    · exact derive?_mono (Nat.le_max_left k k') hu
    · exact Rule.eval?_mono (fun _ _ => derive?_mono (Nat.le_max_right k k')) hv

theorem evaluates_askRecord {name : QName} {next : Option Record → Rule α} {a : α} {w : Trace} :
    env.Evaluates record (.askRecord name next) a w ↔ ∃ v,
      env.Evaluates record (next (record name)) a v ∧ w = v.addRecord name := by
  constructor
  · rintro ⟨k, hk⟩
    obtain ⟨v, hv, hw⟩ := Rule.eval?_askRecord_eq_some.1 hk
    exact ⟨v, ⟨k, hv⟩, hw⟩
  · rintro ⟨v, ⟨k, hv⟩, hw⟩
    exact ⟨k, Rule.eval?_askRecord_eq_some.2 ⟨v, hv, hw⟩⟩

theorem evaluates_read {file : FileId} {next : Rule α} {a : α} {w : Trace} :
    env.Evaluates record (.read file next) a w ↔ ∃ v, env.Evaluates record next a v ∧
      w = v.addFile file := by
  constructor
  · rintro ⟨k, hk⟩
    obtain ⟨v, hv, hw⟩ := Rule.eval?_read_eq_some.1 hk
    exact ⟨v, ⟨k, hv⟩, hw⟩
  · rintro ⟨v, ⟨k, hv⟩, hw⟩
    exact ⟨k, Rule.eval?_read_eq_some.2 ⟨v, hv, hw⟩⟩

theorem derives_iff {n : NodeId} (h : env.program.contains n = true) {t : Option Ty} {w : Trace} :
    env.Derives record n t w ↔ ∃ u, env.Evaluates record (env.rule n) t u ∧ w = u.addNode n := by
  constructor
  · rintro ⟨k, hk⟩
    cases k with
    | zero => simp [derive?_zero h] at hk
    | succ k =>
      obtain ⟨u, hu, hw⟩ := (derive?_succ_eq_some h).1 hk
      exact ⟨u, ⟨k, hu⟩, hw⟩
  · rintro ⟨u, ⟨k, hu⟩, hw⟩
    exact ⟨k + 1, (derive?_succ_eq_some h).2 ⟨u, hu, hw⟩⟩

theorem Derives.none_of_not_contains {n : NodeId} (h : env.program.contains n = false)
    {t : Option Ty} {u : Trace} (hn : env.Derives record n t u) : t = none := by
  obtain ⟨k, hk⟩ := hn
  rw [derive?_of_not_contains h] at hk
  exact (Prod.mk.inj (Option.some.inj hk)).1.symm

/-! ## Relations that follow the rules -/

/-- A relation between nodes, their types and the files these are derived from that holds whenever
the rules say so, with a relation between files and nodes that holds for the files of each type. -/
structure Typing (env : Env) (record : QName → Option Record) where
  holds : NodeId → Option Ty → Finset FileId → Prop
  depends : FileId → NodeId → Prop
  outside : ∀ {n}, env.program.contains n = false → holds n none ∅
  rule : ∀ {n t F}, env.program.contains n = true → (env.rule n).Yields holds record t F →
    holds n t (insert n.file F)
  depends_of_holds : ∀ {n t F f}, holds n t F → f ∈ F → depends f n

/-- Relations between sets of files that can be checked file by file. -/
structure Filewise (R : Finset FileId → Finset FileId → Prop) : Prop where
  empty : R ∅ ∅
  insert : ∀ f {F G}, R F G → R (insert f F) (insert f G)
  union : ∀ {F G F' G'}, R F G → R F' G' → R (F ∪ F') (G ∪ G')

theorem filewise_eq : Filewise (· = ·) :=
  ⟨rfl, fun _ _ _ h => h ▸ rfl, fun h h' => h ▸ h' ▸ rfl⟩

theorem filewise_subset : Filewise (· ⊆ ·) :=
  ⟨Finset.Subset.refl ∅, fun f _ _ h => Finset.insert_subset_insert f h, Finset.union_subset_union⟩

variable {R : Finset FileId → Finset FileId → Prop}

/-- A node has a type by a derivation whose files stand in a given relation to those recorded. -/
def DerivesUpTo (env : Env) (record : QName → Option Record)
    (R : Finset FileId → Finset FileId → Prop) (n : NodeId) (t : Option Ty) (F : Finset FileId) :
    Prop :=
  ∃ u, env.Derives record n t u ∧ R u.files F

theorem exists_evaluates_of_yields (hR : Filewise R) {rule : Rule α} {a : α} {G : Finset FileId}
    (h : rule.Yields (env.DerivesUpTo record R) record a G) :
    ∃ u, env.Evaluates record rule a u ∧ R u.files G := by
  induction h with
  | done a => exact ⟨{}, ⟨0, rfl⟩, hR.empty⟩
  | @ask node next t a F G ht _ ih =>
    obtain ⟨u, hu, hF⟩ := ht
    obtain ⟨v, hv, hG⟩ := ih
    exact ⟨u.union v, evaluates_ask.2 ⟨t, u, v, hu, hv, rfl⟩, hR.union hF hG⟩
  | @askRecord name _ _ _ _ ih =>
    obtain ⟨v, hv, hG⟩ := ih
    exact ⟨v.addRecord name, evaluates_askRecord.2 ⟨v, hv, rfl⟩, hG⟩
  | @read file _ _ _ _ ih =>
    obtain ⟨v, hv, hG⟩ := ih
    exact ⟨v.addFile file, evaluates_read.2 ⟨v, hv, rfl⟩, hR.insert file hG⟩

theorem derivesUpTo_outside (hR : Filewise R) {n : NodeId}
    (h : env.program.contains n = false) : env.DerivesUpTo record R n none ∅ :=
  ⟨{}, ⟨0, derive?_of_not_contains h⟩, hR.empty⟩

theorem derivesUpTo_of_yields (hR : Filewise R) {n : NodeId} {t : Option Ty} {F : Finset FileId}
    (h : env.program.contains n = true)
    (hF : (env.rule n).Yields (env.DerivesUpTo record R) record t F) :
    env.DerivesUpTo record R n t (insert n.file F) := by
  obtain ⟨u, hu, hfiles⟩ := exists_evaluates_of_yields hR hF
  exact ⟨u.addNode n, (derives_iff h).2 ⟨u, hu, rfl⟩, hR.insert _ hfiles⟩

/-- Types are derived from exactly the files that are recorded. -/
def exactTyping (env : Env) (record : QName → Option Record) : env.Typing record where
  holds := env.DerivesUpTo record (· = ·)
  depends f n := ∃ t u, env.Derives record n t u ∧ f ∈ u.files
  outside := derivesUpTo_outside filewise_eq
  rule := derivesUpTo_of_yields filewise_eq
  depends_of_holds := fun ⟨u, hu, hF⟩ hf => ⟨_, u, hu, hF ▸ hf⟩

/-- Types are derived from files that are all recorded. -/
def coveredTyping (env : Env) (record : QName → Option Record) : env.Typing record where
  holds := env.DerivesUpTo record (· ⊆ ·)
  depends _ _ := True
  outside := derivesUpTo_outside filewise_subset
  rule := derivesUpTo_of_yields filewise_subset
  depends_of_holds _ _ := trivial

end Env

end MoveTyping
