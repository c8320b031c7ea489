import MoveTyping.Proofs.Infer.Derivation

/-!
# Replays

Two rules are compared across an edit of one file: what the first gives before the edit, without
reading the file, the second gives after it. A rule that reads the file is not asked for anything,
so that rules may differ in what they do after that.

## Main definitions

* `Trace.Clear` — a derivation that does not read a file, and asks for no record that changes.
* `Replay.Repeats` — what one rule gives clear of a file, another gives after the edit.
-/

namespace MoveTyping

variable {α β : Type}

/-! ## Traces -/

namespace Trace

variable {f : FileId} {record record' : QName → Option Record} {u v w : Trace}

theorem empty_union (u : Trace) : union {} u = u := by
  simp [union]

theorem union_assoc (u v w : Trace) : (u.union v).union w = u.union (v.union w) := by
  simp [union, Finset.union_assoc]

theorem addFile_union (u v : Trace) (g : FileId) : (u.addFile g).union v = (u.union v).addFile g := by
  simp [union, addFile, Finset.insert_union]

theorem addRecord_union (u v : Trace) (q : QName) :
    (u.addRecord q).union v = (u.union v).addRecord q := by
  simp [union, addRecord, Finset.insert_union]

/-- A file is not read, and the records asked for are the same in two sources. -/
structure Clear (f : FileId) (record record' : QName → Option Record) (u : Trace) : Prop where
  files : f ∉ u.files
  records : ∀ q ∈ u.records, record' q = record q

theorem clear_union : (u.union v).Clear f record record' ↔
    u.Clear f record record' ∧ v.Clear f record record' := by
  constructor
  · rintro ⟨hfiles, hrecords⟩
    simp only [union, Finset.mem_union, not_or] at hfiles hrecords
    exact ⟨⟨hfiles.1, fun q hq => hrecords q (.inl hq)⟩,
      ⟨hfiles.2, fun q hq => hrecords q (.inr hq)⟩⟩
  · rintro ⟨hu, hv⟩
    refine ⟨?_, fun q hq => ?_⟩
    · simp only [union, Finset.mem_union, not_or]
      exact ⟨hu.files, hv.files⟩
    · rcases Finset.mem_union.1 hq with hq | hq
      · exact hu.records q hq
      · exact hv.records q hq

theorem clear_addFile {g : FileId} : (u.addFile g).Clear f record record' ↔
    f ≠ g ∧ u.Clear f record record' := by
  constructor
  · rintro ⟨hfiles, hrecords⟩
    simp only [addFile, Finset.mem_insert, not_or] at hfiles
    exact ⟨hfiles.1, hfiles.2, hrecords⟩
  · rintro ⟨hg, hu⟩
    refine ⟨?_, hu.records⟩
    simp only [addFile, Finset.mem_insert, not_or]
    exact ⟨hg, hu.files⟩

theorem clear_addRecord {q : QName} : (u.addRecord q).Clear f record record' ↔
    record' q = record q ∧ u.Clear f record record' := by
  constructor
  · rintro ⟨hfiles, hrecords⟩
    simp only [addRecord, Finset.mem_insert, forall_eq_or_imp] at hrecords
    exact ⟨hrecords.1, hfiles, hrecords.2⟩
  · rintro ⟨hq, hu⟩
    refine ⟨hu.files, ?_⟩
    simp only [addRecord, Finset.mem_insert, forall_eq_or_imp]
    exact ⟨hq, hu.records⟩

theorem clear_addNode {n : NodeId} : (u.addNode n).Clear f record record' ↔
    f ≠ n.file ∧ u.Clear f record record' :=
  clear_addFile (u := { u with nodes := insert n u.nodes }) |>.trans
    ⟨fun h => ⟨h.1, h.2.files, h.2.records⟩, fun h => ⟨h.1, h.2.files, h.2.records⟩⟩

end Trace

/-! ## Rules -/

theorem Rule.eval?_bind {type : NodeId → Option (Option Ty × Trace)}
    {record : QName → Option Record} {rule : Rule α} {next : α → Rule β} {b : β} {w : Trace} :
    (rule.bind next).eval? type record = some (b, w) ↔ ∃ a u v,
      rule.eval? type record = some (a, u) ∧ (next a).eval? type record = some (b, v) ∧
        w = u.union v := by
  induction rule generalizing w with
  | done a => simp [bind, eval?, Trace.empty_union]
  | ask node k ih =>
    simp only [bind, eval?_ask_eq_some, ih]
    constructor
    · rintro ⟨t, u, v, ht, ⟨a, u', v', ha, hb, rfl⟩, rfl⟩
      exact ⟨a, _, v', ⟨t, u, u', ht, ha, rfl⟩, hb, (Trace.union_assoc ..).symm⟩
    · rintro ⟨a, _, v', ⟨t, u, u', ht, ha, rfl⟩, hb, rfl⟩
      exact ⟨t, u, _, ht, ⟨a, u', v', ha, hb, rfl⟩, Trace.union_assoc ..⟩
  | askRecord name k ih =>
    simp only [bind, eval?_askRecord_eq_some, ih]
    constructor
    · rintro ⟨v, ⟨a, u', v', ha, hb, rfl⟩, rfl⟩
      exact ⟨a, _, v', ⟨u', ha, rfl⟩, hb, (Trace.addRecord_union ..).symm⟩
    · rintro ⟨a, _, v', ⟨u', ha, rfl⟩, hb, rfl⟩
      exact ⟨_, ⟨a, u', v', ha, hb, rfl⟩, Trace.addRecord_union ..⟩
  | read file k ih =>
    simp only [bind, eval?_read_eq_some, ih]
    constructor
    · rintro ⟨v, ⟨a, u', v', ha, hb, rfl⟩, rfl⟩
      exact ⟨a, _, v', ⟨u', ha, rfl⟩, hb, (Trace.addFile_union ..).symm⟩
    · rintro ⟨a, _, v', ⟨u', ha, rfl⟩, hb, rfl⟩
      exact ⟨_, ⟨a, u', v', ha, hb, rfl⟩, Trace.addFile_union ..⟩

/-- What rules are evaluated with, before and after an edit of a file. -/
structure Replay where
  file : FileId
  type : NodeId → Option (Option Ty × Trace)
  type' : NodeId → Option (Option Ty × Trace)
  record : QName → Option Record
  record' : QName → Option Record

namespace Replay

variable {w : Replay} {rule rule' : Rule α}

/-- What the first rule gives before the edit and clear of the file, the second gives after it. -/
def Repeats (w : Replay) (rule rule' : Rule α) : Prop :=
  ∀ a u, rule.eval? w.type w.record = some (a, u) → u.Clear w.file w.record w.record' →
    rule'.eval? w.type' w.record' = some (a, u)

theorem repeats_done (w : Replay) (a : α) : w.Repeats (.done a) (.done a) :=
  fun _ _ h _ => h

theorem Repeats.bind {next next' : α → Rule β} (h : w.Repeats rule rule')
    (hnext : ∀ a, w.Repeats (next a) (next' a)) : w.Repeats (rule >>= next) (rule' >>= next') := by
  intro b x hb hx
  obtain ⟨a, u, v, hu, hv, rfl⟩ := Rule.eval?_bind.1 hb
  obtain ⟨hclear, hclear'⟩ := Trace.clear_union.1 hx
  exact Rule.eval?_bind.2 ⟨a, u, v, h a u hu hclear, hnext a b v hv hclear', rfl⟩

theorem Repeats.map (h : w.Repeats rule rule') (g : α → β) :
    w.Repeats (g <$> rule) (g <$> rule') :=
  h.bind fun a => w.repeats_done (g a)

theorem repeats_mapM {γ : Type} {g g' : γ → Rule β} {l l' : List γ} (hl : l' = l)
    (h : ∀ a ∈ l, w.Repeats (g a) (g' a)) : w.Repeats (l.mapM g) (l'.mapM g') := by
  subst hl
  induction l' with
  | nil => exact w.repeats_done []
  | cons a l ih =>
    rw [List.mapM_cons, List.mapM_cons]
    refine (h a List.mem_cons_self).bind fun b => ?_
    exact (ih fun a ha => h a (List.mem_cons_of_mem _ ha)).bind fun bs => w.repeats_done _

theorem repeats_record? (w : Replay) (q : QName) : w.Repeats (.record? q) (.record? q) := by
  intro r u hr hu
  obtain ⟨v, hv, rfl⟩ := Rule.eval?_askRecord_eq_some.1 hr
  obtain ⟨hq, -⟩ := Trace.clear_addRecord.1 hu
  refine Rule.eval?_askRecord_eq_some.2 ⟨v, ?_, rfl⟩
  rw [hq]
  exact hv

theorem Repeats.read (h : w.Repeats rule rule') (g : FileId) :
    w.Repeats (.read g rule) (.read g rule') := by
  intro a u hr hu
  obtain ⟨v, hv, rfl⟩ := Rule.eval?_read_eq_some.1 hr
  exact Rule.eval?_read_eq_some.2 ⟨v, h a v hv (Trace.clear_addFile.1 hu).2, rfl⟩

/-- After a rule that reads the file anything may follow. -/
theorem repeats_read_file {g : FileId} (hg : g = w.file) :
    w.Repeats (.read g rule) rule' := by
  intro a u hr hu
  obtain ⟨v, -, rfl⟩ := Rule.eval?_read_eq_some.1 hr
  exact absurd hg.symm (Trace.clear_addFile.1 hu).1

theorem not_mem_of_reading {derived : α × List FileId} {a : α} {u : Trace}
    (hr : (Rule.reading derived).eval? w.type w.record = some (a, u))
    (hu : u.Clear w.file w.record w.record') : w.file ∉ derived.2 := by
  unfold Rule.reading at hr
  generalize derived.2 = files at hr
  induction files generalizing u with
  | nil => simp
  | cons g files ih =>
    obtain ⟨v, hv, rfl⟩ := Rule.eval?_read_eq_some.1 hr
    obtain ⟨hg, hclear⟩ := Trace.clear_addFile.1 hu
    simp only [List.mem_cons, not_or]
    exact ⟨hg, ih hclear hv⟩

theorem repeats_reading {derived derived' : α × List FileId}
    (h : w.file ∉ derived.2 → derived' = derived) :
    w.Repeats (.reading derived) (.reading derived') := by
  intro a u hr hu
  rw [h (not_mem_of_reading hr hu)]
  clear h hu
  unfold Rule.reading at hr ⊢
  generalize derived.2 = files at hr ⊢
  induction files generalizing u with
  | nil => exact hr
  | cons g files ih =>
    obtain ⟨v, hv, rfl⟩ := Rule.eval?_read_eq_some.1 hr
    exact Rule.eval?_read_eq_some.2 ⟨v, ih v hv, rfl⟩

/-- After what was derived from the file anything may follow. -/
theorem repeats_reading_file {derived : α × List FileId} (h : w.file ∈ derived.2)
    {next : α → Rule β} {rule' : Rule β} : w.Repeats (.reading derived >>= next) rule' := by
  intro b x hb hx
  obtain ⟨a, u, v, hu, -, rfl⟩ := Rule.eval?_bind.1 hb
  exact absurd h (not_mem_of_reading hu (Trace.clear_union.1 hx).1)

/-- The types of the nodes outside the file are repeated, and those of its nodes read it. -/
structure Agrees (w : Replay) (p : Program) : Prop where
  same : ∀ {n t u}, n.file ≠ w.file → w.type n = some (t, u) →
    u.Clear w.file w.record w.record' → w.type' n = some (t, u)
  reads : ∀ {n t u}, n.file = w.file → p.contains n = true → w.type n = some (t, u) →
    w.file ∈ u.files

namespace Agrees

variable {p : Program} {n : NodeId}

theorem ask (h : w.Agrees p) (hn : n.file ≠ w.file) {next next' : Option Ty → Rule α}
    (hnext : ∀ t, w.Repeats (next t) (next' t)) : w.Repeats (.ask n next) (.ask n next') := by
  intro a x ha hx
  obtain ⟨t, u, v, hu, hv, rfl⟩ := Rule.eval?_ask_eq_some.1 ha
  obtain ⟨hclear, hclear'⟩ := Trace.clear_union.1 hx
  exact Rule.eval?_ask_eq_some.2 ⟨t, u, v, h.same hn hu hclear, hnext t a v hv hclear',
    rfl⟩

theorem typeOf (h : w.Agrees p) (hn : n.file ≠ w.file) :
    w.Repeats (.typeOf n) (.typeOf n) :=
  h.ask hn fun t => w.repeats_done (t.getD .unknown)

theorem typesOf (h : w.Agrees p) {nodes : List NodeId} (hn : ∀ n ∈ nodes, n.file ≠ w.file) :
    w.Repeats (.typesOf nodes) (.typesOf nodes) :=
  repeats_mapM rfl fun n hmem => h.typeOf (hn n hmem)

/-- After a rule that asks for a node of the file anything may follow. -/
theorem typeOf_file (h : w.Agrees p) (hn : n.file = w.file) (hcontains : p.contains n = true)
    {next : Ty → Rule α} : w.Repeats (.typeOf n >>= next) rule' := by
  intro a x ha hx
  obtain ⟨t, u, v, hu, -, rfl⟩ := Rule.eval?_ask_eq_some.1 ha
  exact absurd (h.reads hn hcontains hu) (Trace.clear_union.1 hx).1.files

end Agrees

end Replay

end MoveTyping
