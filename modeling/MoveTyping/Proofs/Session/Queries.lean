import MoveTyping.Session
import MoveTyping.Proofs.Infer.Consistent

/-!
# Queries of a session

A query runs one engine or several over the cache of the session and leaves the trees as they are.
So a protocol that every question keeps to is kept to by queries, under every schedule: the answers
follow a typing if the cache does and nothing is cut off.

## Main definitions

* `Session.Clean` — a session in which nothing was cut off.
* `Session.Consistent` — a session whose cache follows a typing.
* `Query`, `Session.answers` — sequences of single and batched queries, each batch with a schedule.

## Main results

* `Session.answer_safe` — queries under a protocol.
* `Session.Consistent.answers` — the answers follow the typing.
-/

namespace MoveTyping

variable {α β : Type}

/-! ## Rules that ask for a list of nodes -/

namespace Rule

variable {T : NodeId → Option Ty → Finset FileId → Prop} {record : QName → Option Record}

theorem Yields.of_bind {r : Rule α} {g : α → Rule β} {b : β} {F : Finset FileId}
    (h : (r.bind g).Yields T record b F) :
    ∃ a G H, r.Yields T record a G ∧ (g a).Yields T record b H := by
  induction r generalizing F with
  | done a => exact ⟨a, ∅, F, .done a, h⟩
  | ask node next ih =>
    cases h with
    | ask ht hnext =>
      obtain ⟨a, G, H, hG, hH⟩ := ih _ hnext
      exact ⟨a, _, H, .ask ht hG, hH⟩
  | askRecord name next ih =>
    cases h with
    | askRecord hnext =>
      obtain ⟨a, G, H, hG, hH⟩ := ih _ hnext
      exact ⟨a, _, H, .askRecord hG, hH⟩
  | read file next ih =>
    cases h with
    | read hnext =>
      obtain ⟨a, G, H, hG, hH⟩ := ih hnext
      exact ⟨a, _, H, .read hG, hH⟩

end Rule

namespace Session

variable {κ : Type}

theorem labelledRule_cons (node : NodeId) (label : κ) (nodes : List (NodeId × κ)) :
    labelledRule ((node, label) :: nodes) =
      .ask node fun t => (labelledRule nodes).bind fun answers =>
        .done ((label, t) :: answers) := by
  simp only [labelledRule, List.mapM_cons]
  rfl

/-- The answers carry the labels of the nodes, each with a type of a node with this label. -/
theorem labels_of_yields {T : NodeId → Option Ty → Finset FileId → Prop}
    {record : QName → Option Record} {nodes : List (NodeId × κ)}
    {answers : List (κ × Option Ty)} {F : Finset FileId}
    (h : (labelledRule nodes).Yields T record answers F) :
    answers.map Prod.fst = nodes.map Prod.snd ∧
      ∀ answer ∈ answers, ∃ node ∈ nodes, answer.1 = node.2 ∧ ∃ G, T node.1 answer.2 G := by
  induction nodes generalizing answers F with
  | nil =>
    cases h
    exact ⟨rfl, by simp⟩
  | cons node nodes ih =>
    rw [labelledRule_cons] at h
    cases h with
    | ask ht hnext =>
      obtain ⟨rest, G, H, hG, hH⟩ := hnext.of_bind
      cases hH
      obtain ⟨hlabels, hrest⟩ := ih hG
      refine ⟨by simp [hlabels], fun answer hmem => ?_⟩
      rcases List.mem_cons.1 hmem with rfl | hmem
      · exact ⟨node, List.mem_cons_self, rfl, _, ht⟩
      · obtain ⟨node', hnode', hanswer⟩ := hrest answer hmem
        exact ⟨node', List.mem_cons_of_mem _ hnode', hanswer⟩

end Session

/-! ## New engines -/

namespace Rule

/-- A rule that asks for some nodes and does nothing else. -/
def AsksOnly (nodes : List NodeId) : Rule α → Prop
  | done _ => True
  | ask node next => node ∈ nodes ∧ ∀ t, (next t).AsksOnly nodes
  | askRecord _ _ => False
  | read _ _ => False

variable {nodes nodes' : List NodeId}

theorem AsksOnly.mono {rule : Rule α} (h : rule.AsksOnly nodes) (hsub : nodes ⊆ nodes') :
    rule.AsksOnly nodes' := by
  induction rule with
  | done a => trivial
  | ask node next ih => exact ⟨hsub h.1, fun t => ih t (h.2 t)⟩
  | askRecord name next ih => exact h
  | read file next ih => exact h

theorem AsksOnly.bind {rule : Rule α} {next : α → Rule β} (h : rule.AsksOnly nodes)
    (hnext : ∀ a, (next a).AsksOnly nodes) : (rule.bind next).AsksOnly nodes := by
  induction rule with
  | done a => exact hnext a
  | ask node next' ih => exact ⟨h.1, fun t => ih t (h.2 t)⟩
  | askRecord name next' ih => exact h
  | read file next' ih => exact h

theorem asksOnly_typeOf? (n : NodeId) : (typeOf? n).AsksOnly [n] :=
  ⟨List.mem_singleton_self n, fun _ => trivial⟩

theorem asksOnly_labelledRule {κ : Type} (nodes : List (NodeId × κ)) :
    (Session.labelledRule nodes).AsksOnly (nodes.map Prod.fst) := by
  induction nodes with
  | nil => trivial
  | cons node nodes ih =>
    rw [Session.labelledRule_cons]
    refine ⟨List.mem_cons_self, fun t => ?_⟩
    exact (ih.mono (List.subset_cons_self ..)).bind fun answers => trivial

end Rule

namespace Inference

variable {i : Inference} {P : Protocol} {s : Shared}

/-- A new engine by itself. -/
theorem run_task (i : Inference) (rule : Rule α) (c : Cache) :
    (i.task rule).run { cache := c } =
      ((i.perform rule (.ofCache c)).1, (i.perform rule (.ofCache c)).2.toShared) :=
  Task.run_bind ..

/-- A rule that only asks for nodes keeps to a protocol if the questions for these nodes do. -/
theorem safe_ruleTask_of_asksOnly {nodes : List NodeId} {depth : Nat}
    (h : ∀ n ∈ nodes, ∀ p s, p.active = [] →
      (i.typeTask depth n p).Safe P (fun _ _ => True) s)
    {rule : Rule α} (hrule : rule.AsksOnly nodes) {p : Progress} (hp : p.active = []) (s : Shared) :
    (i.ruleTask (i.typeTask depth) rule p).Safe P (fun _ _ => True) s := by
  induction rule generalizing p s with
  | done a => exact fun _ _ => trivial
  | ask node next ih =>
    rw [ruleTask_ask]
    refine ((h node hrule.1 p s hp).and_always (i.always_typeTask depth node p)).bind
      fun r s' hs' hr => ?_
    exact ih r.1 (hrule.2 r.1) ((hr.now hs'.inv).2.trans hp) s'
  | askRecord name next ih => exact hrule.elim
  | read file next ih => exact hrule.elim

end Inference

/-! ## One engine -/

namespace Session

variable {s : Session}

/-- How often a question was cut off. -/
def cuts (s : Session) : Nat := s.counters.cycles + s.counters.depthCutoffs

/-- Nothing was cut off in the session. -/
def Clean (s : Session) : Prop := s.counters.cycles = 0 ∧ s.counters.depthCutoffs = 0

theorem clean_iff : s.Clean ↔ s.cuts = 0 := by
  simp [Clean, cuts]

theorem cuts_absorb (s : Session) (left : Shared) : (s.absorb left).cuts = s.cuts + left.cuts :=
  Nat.add_add_add_comm ..

theorem cuts_perform (s : Session) (rule : Rule α) :
    (s.perform rule).2.cuts =
      s.cuts + (s.inference.perform rule (.ofCache s.cache)).2.cuts := s.cuts_absorb _

/-- A query for one node asks a new engine. -/
theorem infer_eq (s : Session) (n : NodeId) :
    s.infer n =
      ((s.inference.inferWithin s.settings.depthLimit.limit n (.ofCache s.cache)).1,
        s.absorb (s.inference.inferWithin s.settings.depthLimit.limit n
          (.ofCache s.cache)).2.toShared) := by
  have hrun : s.inference.infer n (.ofCache s.cache) =
      s.inference.inferWithin s.settings.depthLimit.limit n (.ofCache s.cache) :=
    s.inference.infer_eq_inferWithin n _
  rw [← hrun]
  rfl

theorem cuts_infer (s : Session) (n : NodeId) :
    (s.infer n).2.cuts = s.cuts + (s.inference.inferWithin s.settings.depthLimit.limit n
      (.ofCache s.cache)).2.cuts := by
  rw [infer_eq]
  exact s.cuts_absorb _

/-- The record of a name in the index, or else where an engine looks for it. -/
def known? (s : Session) (q : QName) : Option Record := (s.cache.record? q).or (s.env.found? q)

/-- What queries leave as it was. -/
structure Asked (s s' : Session) : Prop where
  settings : s'.settings = s.settings
  catalog : s'.catalog = s.catalog
  sources : s'.sources = s.sources
  indexed : s'.indexed = s.indexed
  cache : s.cache.Frame s.env.ownRecord? s'.cache

namespace Asked

variable {s' s'' : Session}

theorem env (h : s.Asked s') : s'.env = s.env := by
  simp only [Session.env, program, h.sources, h.catalog]

theorem refl (s : Session) : s.Asked s := ⟨rfl, rfl, rfl, rfl, .refl _⟩

theorem trans (h : s.Asked s') (h' : s'.Asked s'') : s.Asked s'' :=
  ⟨h'.settings.trans h.settings, h'.catalog.trans h.catalog, h'.sources.trans h.sources,
    h'.indexed.trans h.indexed, h.cache.trans (h.env ▸ h'.cache)⟩

theorem inference (h : s.Asked s') : s'.inference = s.inference := by
  simp only [Session.inference, h.env, h.settings, h.cache.generation]

end Asked

theorem asked_perform (s : Session) (rule : Rule α) : s.Asked (s.perform rule).2 :=
  ⟨rfl, rfl, rfl, rfl,
    (Inference.frame_perform (i := s.inference) (e := .ofCache s.cache) rule).cache⟩

variable {i : Inference} {record : QName → Option Record} {T : i.env.Typing record}

/-- A session at which an inference works, with a cache that follows a typing. -/
structure Consistent (i : Inference) {record : QName → Option Record} (T : i.env.Typing record)
    (s : Session) : Prop where
  inference : s.inference = i
  cache : i.Consistent T s.cache

theorem Consistent.perform (h : s.Consistent i T) (rule : Rule α)
    (hcuts : (s.perform rule).2.cuts = s.cuts) :
    (s.perform rule).2.Consistent i T ∧ ∃ F, rule.Yields T.holds record (s.perform rule).1 F := by
  obtain ⟨rfl, hc⟩ := h
  have hcuts : (s.inference.perform rule (.ofCache s.cache)).2.cuts = 0 := by
    have := s.cuts_perform rule
    omega
  rw [Inference.perform_eq] at hcuts
  obtain ⟨hc, F, hF, -⟩ := Inference.performWith_yields _ rule (.ofCache s.cache) hc hcuts
  rw [← Inference.perform_eq] at hc hF
  exact ⟨⟨(s.asked_perform rule).inference, hc⟩, F, hF⟩

theorem Consistent.infer (h : s.Consistent i T) (n : NodeId)
    (hcuts : (s.infer n).2.cuts = s.cuts) :
    (s.infer n).2.Consistent i T ∧ ∃ F, T.holds n (s.infer n).1 F := by
  obtain ⟨h, F, hF⟩ := h.perform _ hcuts
  refine ⟨h, ?_⟩
  unfold Session.infer
  generalize (s.perform (Rule.typeOf? n)).1 = t at hF
  cases hF with
  | ask ht hnext =>
    cases hnext
    exact ⟨_, ht⟩

/-! ## Batches -/

/-- The engines of a batch under a protocol. -/
theorem runGroups_safe {P : Protocol} {nodes : List NodeId}
    {Q : FileId → List (Nat × Option Ty) → Shared → Prop} (hs : P.inv { cache := s.cache })
    (h : ∀ f ∈ filesOf nodes, (s.groupTask nodes f).Safe P (Q f) { cache := s.cache })
    (schedule : List Nat) :
    P.lost (s.runGroups nodes schedule).2 ∨
      P.Allows { cache := s.cache } (s.runGroups nodes schedule).2 ∧
        List.Forall₂ (fun f answers => Q f answers (s.runGroups nodes schedule).2) (filesOf nodes)
          (s.runGroups nodes schedule).1 :=
  Pool.run_safe hs h _

theorem mem_filesOf {nodes : List NodeId} {n : NodeId} (h : n ∈ nodes) :
    n.file ∈ filesOf nodes := by
  induction nodes with
  | nil => exact nomatch h
  | cons m nodes ih =>
    refine Cache.mem_addFile.2 ?_
    rcases List.mem_cons.1 h with rfl | h
    · exact .inl rfl
    · exact .inr (ih h)

/-- The answers to the nodes of all files: each belongs to the node of its position, and every node
has one. -/
theorem Consistent.runGroups (h : s.Consistent i T) (nodes : List NodeId) (schedule : List Nat)
    (hcuts : (s.runGroups nodes schedule).2.cuts = 0) :
    i.Consistent T (s.runGroups nodes schedule).2.cache ∧
      (∀ answer ∈ (s.runGroups nodes schedule).1.flatten, ∃ n F, nodes[answer.1]? = some n ∧
        T.holds n answer.2 F) ∧
      ∀ {k n}, nodes[k]? = some n →
        ∃ answer ∈ (s.runGroups nodes schedule).1.flatten, answer.1 = k := by
  obtain ⟨rfl, hc⟩ := h
  have hsafe : ∀ f ∈ filesOf nodes, (s.groupTask nodes f).Safe (s.inference.following T 0)
      (fun answers _ => ∃ F, (labelledRule (nodes.zipIdx.filter (·.1.file = f))).Yields T.holds
        record answers F) { cache := s.cache } := by
    intro f _
    refine Inference.safe_task ((Inference.yields_ruleTask (Inference.yields_typeTask _) _ {}
      _).imp fun r s' _ hr => ?_)
    obtain ⟨F, hF, -⟩ := hr
    exact ⟨F, hF⟩
  obtain hlost | ⟨hrun, hanswers⟩ :=
    runGroups_safe (P := s.inference.following T 0) ⟨rfl, hc⟩ hsafe schedule
  · exact absurd hcuts (Nat.ne_of_gt hlost)
  refine ⟨hrun.inv.2, fun answer hmem => ?_, fun {k n} hk => ?_⟩
  · obtain ⟨answers, hgroup, hmem⟩ := List.mem_flatten.1 hmem
    obtain ⟨f, -, F, hF⟩ := exists_of_mem_forall₂ hanswers hgroup
    obtain ⟨node, hnode, hlabel, G, hG⟩ := (labels_of_yields hF).2 answer hmem
    have hpos := List.mem_zipIdx_iff_getElem?.1 (List.mem_filter.1 hnode).1
    exact ⟨node.1, G, hlabel ▸ hpos, hG⟩
  · -- the group of the file of the node has an answer with its position
    have hf := mem_filesOf (List.mem_of_getElem? hk)
    obtain ⟨answers, hgroup, F, hF⟩ := exists_of_mem_forall₂ hanswers.flip hf
    have hnode : (n, k) ∈ nodes.zipIdx.filter (·.1.file = n.file) :=
      List.mem_filter.2 ⟨List.mem_zipIdx_iff_getElem?.2 hk, by simp⟩
    have hlabel := List.mem_map_of_mem hnode (f := Prod.snd)
    rw [← (labels_of_yields hF).1] at hlabel
    obtain ⟨answer, hmem, hk⟩ := List.mem_map.1 hlabel
    exact ⟨answer, List.mem_flatten.2 ⟨answers, hgroup, hmem⟩, hk⟩

end Session

/-! ## Sequences of queries -/

/-- A query for the type of one node or of many, whose engines take turns as a schedule says. -/
inductive Query where
  | one (node : NodeId)
  | batch (nodes : List NodeId) (schedule : List Nat := [])

def Query.nodes : Query → List NodeId
  | one node => [node]
  | batch nodes _ => nodes

namespace Session

variable {s : Session} {i : Inference} {record : QName → Option Record} {T : i.env.Typing record}

/-- The answers to the nodes of a query. -/
def answer (s : Session) : Query → List (Option Ty) × Session
  | .one node => let (t, s) := s.infer node; ([t], s)
  | .batch nodes schedule => s.inferBatch nodes schedule

/-- The answers to queries that are made one after the other. -/
def answers (s : Session) : List Query → List (List (Option Ty)) × Session
  | [] => ([], s)
  | q :: qs =>
    let (first, s) := s.answer q
    let (rest, s) := s.answers qs
    (first :: rest, s)

/-- A query under a protocol that all of its questions keep to. -/
theorem answer_safe {P : Protocol} {q : Query} (hs : P.inv { cache := s.cache })
    (h : ∀ n ∈ q.nodes, ∀ p s', p.active = [] →
      (s.inference.typeTask s.inference.limit.limit n p).Safe P (fun _ _ => True) s') :
    ∃ left, (s.answer q).2 = s.absorb left ∧
      (P.lost left ∨ P.Allows { cache := s.cache } left) := by
  have htask : ∀ {α : Type} {rule : Rule α}, rule.AsksOnly q.nodes →
      (s.inference.task rule).Safe P (fun _ _ => True) { cache := s.cache } := fun hrule =>
    Inference.safe_task (Inference.safe_ruleTask_of_asksOnly h hrule rfl _)
  cases q with
  | one n =>
    refine ⟨(s.inference.perform (.typeOf? n) (.ofCache s.cache)).2.toShared, rfl, ?_⟩
    have hrun := (htask (Rule.asksOnly_typeOf? n)).run hs
    rw [Inference.run_task] at hrun
    exact hrun.imp_right And.left
  | batch nodes schedule =>
    refine ⟨(s.runGroups nodes schedule).2, rfl, ?_⟩
    refine (runGroups_safe hs (fun f _ => htask ?_) schedule).imp_right And.left
    refine (Rule.asksOnly_labelledRule _).mono fun n hn => ?_
    obtain ⟨node, hnode, rfl⟩ := List.mem_map.1 hn
    exact List.mem_of_getElem? (List.mem_zipIdx_iff_getElem?.1 (List.mem_filter.1 hnode).1)

theorem asked_answer (s : Session) (q : Query) : s.Asked (s.answer q).2 := by
  have hframed : ∀ n ∈ q.nodes, ∀ p s', p.active = [] →
      (s.inference.typeTask s.inference.limit.limit n p).Safe (framing s.inference.env.ownRecord?)
        (fun _ _ => True) s' := fun n _ p s' _ => s.inference.framed_typeTask _ n p s'
  obtain ⟨left, hleft, hlost | hrun⟩ := answer_safe trivial hframed
  · exact hlost.elim
  · rw [hleft]
    exact ⟨rfl, rfl, rfl, rfl, hrun.le.cache⟩

theorem asked_answers (s : Session) (qs : List Query) : s.Asked (s.answers qs).2 := by
  induction qs generalizing s with
  | nil => exact .refl s
  | cons q qs ih => exact (s.asked_answer q).trans (ih (s.answer q).2)

theorem cuts_le_answer (s : Session) (q : Query) : s.cuts ≤ (s.answer q).2.cuts := by
  cases q with
  | one n => exact (s.cuts_perform (.typeOf? n)).symm ▸ Nat.le_add_right ..
  | batch nodes schedule =>
    exact (s.cuts_absorb (s.runGroups nodes schedule).2).symm ▸ Nat.le_add_right ..

theorem cuts_le_answers (s : Session) (qs : List Query) : s.cuts ≤ (s.answers qs).2.cuts := by
  induction qs generalizing s with
  | nil => exact Nat.le_refl _
  | cons q qs ih => exact (s.cuts_le_answer q).trans (ih (s.answer q).2)

/-- The answers of a batch belong to the nodes in their order. -/
theorem Consistent.inferBatch (h : s.Consistent i T) (nodes : List NodeId) (schedule : List Nat)
    (hcuts : (s.inferBatch nodes schedule).2.cuts = s.cuts) :
    (s.inferBatch nodes schedule).2.Consistent i T ∧
      List.Forall₂ (fun n t => ∃ F, T.holds n t F) nodes (s.inferBatch nodes schedule).1 := by
  have hcuts : (s.runGroups nodes schedule).2.cuts = 0 := by
    have := s.cuts_absorb (s.runGroups nodes schedule).2
    change (s.inferBatch nodes schedule).2.cuts = _ at this
    omega
  obtain ⟨hc, hown, hall⟩ := h.runGroups nodes schedule hcuts
  refine ⟨⟨(s.asked_answer (.batch nodes schedule)).inference.trans h.inference, hc⟩,
    List.forall₂_iff_get.2 ⟨by simp [Session.inferBatch], fun k hk hk' => ?_⟩⟩
  have hget : nodes[k]? = some (nodes.get ⟨k, hk⟩) := by simp
  obtain ⟨answer, hmem, hanswer⟩ := hall hget
  -- the position occurs, so the look-up finds an answer, and any answer of this position is right
  have hsome : ((s.runGroups nodes schedule).1.flatten.lookup k).isSome :=
    List.lookup_isSome_iff.2 ⟨answer, hmem, by simp [hanswer]⟩
  obtain ⟨t, ht⟩ := Option.isSome_iff_exists.1 hsome
  obtain ⟨l, l', hsplit, -⟩ := List.lookup_eq_some_iff.1 ht
  obtain ⟨n, F, hn, hF⟩ := hown (k, t) (hsplit ▸ by simp)
  have hn : n = nodes.get ⟨k, hk⟩ := Option.some.inj (hn.symm.trans hget)
  refine ⟨F, ?_⟩
  have hresult : (s.inferBatch nodes schedule).1.get ⟨k, hk'⟩ =
      ((s.runGroups nodes schedule).1.flatten.lookup k).join := by
    simp [Session.inferBatch]
  rw [hresult, ht, ← hn]
  exact hF

theorem Consistent.answer (h : s.Consistent i T) (q : Query)
    (hcuts : (s.answer q).2.cuts = s.cuts) :
    (s.answer q).2.Consistent i T ∧
      List.Forall₂ (fun n t => ∃ F, T.holds n t F) q.nodes (s.answer q).1 := by
  cases q with
  | one n =>
    obtain ⟨h, hn⟩ := h.infer n hcuts
    exact ⟨h, .cons hn .nil⟩
  | batch nodes schedule => exact h.inferBatch nodes schedule hcuts

theorem Consistent.answers (h : s.Consistent i T) (qs : List Query)
    (hcuts : (s.answers qs).2.cuts = s.cuts) :
    (s.answers qs).2.Consistent i T ∧
      List.Forall₂ (fun q ts => List.Forall₂ (fun n t => ∃ F, T.holds n t F) q.nodes ts) qs
        (s.answers qs).1 := by
  induction qs generalizing s with
  | nil => exact ⟨h, .nil⟩
  | cons q qs ih =>
    have hfirst := s.cuts_le_answer q
    have hrest := (s.answer q).2.cuts_le_answers qs
    change ((s.answer q).2.answers qs).2.cuts = s.cuts at hcuts
    obtain ⟨h, hq⟩ := h.answer q (by omega)
    obtain ⟨h, hqs⟩ := ih h (by omega)
    exact ⟨h, .cons hq hqs⟩

end Session

end MoveTyping
