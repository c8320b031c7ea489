import MoveTyping.Proofs.Infer.Run

/-!
# Properties of answers

A property of types that every rule keeps holds of every answer of the engine. A rule keeps it if,
whatever types and records with the property it is told, its result has the property too; this is
checked rule by rule, without the engine. The engine only hands on what rules give, what it looks up
and what it has cached.

## Main definitions

* `Rule.Ensures` — what a rule gives if all that it is told has some property.
* `Cache.Holds` — all that is in a cache has some property.
* `Env.Upholds` — all rules and all records of an environment keep a property.
* `holding` — the protocol of engines that keep a property.

## Main results

* `Inference.ensures_ruleTask`, `Inference.ensures_typeTask` — engines keep to it.
* `Inference.ensures_perform`, `Inference.ensures_infer` — the same of an engine by itself.
-/

namespace MoveTyping

variable {α β : Type} {P : Ty → Prop} {R : Record → Prop}

/-! ## Rules -/

namespace Rule

/-- The result satisfies `Q` if the types that the rule is told satisfy `P` and the records
satisfy `R`. -/
def Ensures (P : Ty → Prop) (R : Record → Prop) (Q : α → Prop) : Rule α → Prop
  | done a => Q a
  | ask _ next => ∀ t, (∀ u ∈ t, P u) → (next t).Ensures P R Q
  | askRecord _ next => ∀ r, (∀ x ∈ r, R x) → (next r).Ensures P R Q
  | read _ next => next.Ensures P R Q

variable {rule : Rule α} {Q : α → Prop} {Q' : β → Prop}

theorem ensures_pure {a : α} (h : Q a) : (pure a : Rule α).Ensures P R Q := h

theorem ensures_trivial (rule : Rule α) : rule.Ensures P R fun _ => True := by
  induction rule with
  | done a => trivial
  | ask node next ih => exact fun t _ => ih t
  | askRecord name next ih => exact fun r _ => ih r
  | read file next ih => exact ih

theorem Ensures.bind {next : α → Rule β} (h : rule.Ensures P R Q)
    (hnext : ∀ a, Q a → (next a).Ensures P R Q') : (rule >>= next).Ensures P R Q' := by
  induction rule with
  | done a => exact hnext a h
  | ask node next ih => exact fun t ht => ih t (h t ht)
  | askRecord name next ih => exact fun r hr => ih r (h r hr)
  | read file next ih => exact ih h

theorem Ensures.map {f : α → β} (h : rule.Ensures P R Q) (hf : ∀ a, Q a → Q' (f a)) :
    (f <$> rule).Ensures P R Q' :=
  h.bind fun a ha => ensures_pure (hf a ha)

theorem ensures_mapM {f : α → Rule β} {l : List α} (h : ∀ a ∈ l, (f a).Ensures P R Q') :
    (l.mapM f).Ensures P R fun bs => ∀ b ∈ bs, Q' b := by
  induction l with
  | nil => exact ensures_pure (by simp)
  | cons a l ih =>
    obtain ⟨ha, hl⟩ := List.forall_mem_cons.1 h
    rw [List.mapM_cons]
    exact ha.bind fun b hb => (ih hl).bind fun bs hbs =>
      ensures_pure (List.forall_mem_cons.2 ⟨hb, hbs⟩)

theorem ensures_typeOf? (node : NodeId) : (typeOf? node).Ensures P R fun t => ∀ u ∈ t, P u :=
  fun _ ht => ht

theorem ensures_typeOf (hunknown : P .unknown) (node : NodeId) : (typeOf node).Ensures P R P := by
  intro t ht
  cases t with
  | none => exact hunknown
  | some u => exact ht u rfl

theorem ensures_typesOf (hunknown : P .unknown) (nodes : List NodeId) :
    (typesOf nodes).Ensures P R fun ts => ∀ t ∈ ts, P t :=
  ensures_mapM fun node _ => ensures_typeOf hunknown node

theorem ensures_record? (name : QName) : (record? name).Ensures P R fun r => ∀ x ∈ r, R x :=
  fun _ hr => hr

theorem ensures_reading {derived : α × List FileId} (h : Q derived.1) :
    (reading derived).Ensures P R Q := by
  obtain ⟨a, files⟩ := derived
  induction files with
  | nil => exact h
  | cons file files ih => exact ih h

end Rule

/-! ## Caches -/

namespace Cache

variable {c c' : Cache}

/-- The cached types satisfy `P`, and the indexed records satisfy `R`. -/
structure Holds (P : Ty → Prop) (R : Record → Prop) (c : Cache) : Prop where
  entry : ∀ {n e}, c.entries.get? n = some e → P e.ty
  record : ∀ {q r}, c.index.get? q = some r → R r

theorem holds_ofSettings (settings : CacheSettings) : (ofSettings settings).Holds P R :=
  ⟨(nomatch ·), (nomatch ·)⟩

namespace Holds

/-- Entries and records may be dropped. -/
theorem of_subset (h : c.Holds P R)
    (hentries : ∀ {n e}, c'.entries.get? n = some e → c.entries.get? n = some e)
    (hindex : ∀ {q r}, c'.index.get? q = some r → c.index.get? q = some r) : c'.Holds P R :=
  ⟨fun he => h.entry (hentries he), fun hr => h.record (hindex hr)⟩

theorem served (h : c.Holds P R) {n : NodeId} {x : Cached} (hx : c.served? n = some x) :
    P x.ty := by
  obtain ⟨e, he, -, rfl⟩ := served?_eq_some_iff.1 hx
  exact h.entry he

/-- A look-up puts back what it has found. -/
theorem fetch (h : c.Holds P R) (m : NodeId) : (c.fetch m).2.Holds P R := by
  unfold Cache.fetch
  split
  · next x hx =>
    have hty : P x.ty := h.entry hx
    split
    · refine ⟨fun {n e} he => ?_, h.record⟩
      simp only [Table.get?_insert] at he
      split at he
      · exact Option.some.inj he ▸ hty
      · exact h.entry he
    · refine h.of_subset (fun {n e} he => ?_) id
      simp only [Table.get?_erase] at he
      split at he
      · cases he
      · exact he
  · exact h.of_subset id id

theorem sweep (h : c.Holds P R) : c.sweep.2.Holds P R := h.of_subset get?_sweep id

theorem invalidate (h : c.Holds P R) (file : FileId) : (c.invalidate file).Holds P R :=
  h.of_subset (fun he => (Option.filter_eq_some_iff.1 ((Table.get?_filter ..).symm.trans he)).1) id

theorem retire (h : c.Holds P R) (file : FileId) : (c.retire file).Holds P R :=
  (h.invalidate file).of_subset id id

theorem revive (h : c.Holds P R) (file : FileId) : (c.revive file).Holds P R := h.of_subset id id

theorem clear (c : Cache) : c.clear.Holds P R := ⟨(nomatch ·), (nomatch ·)⟩

theorem indexRecord (h : c.Holds P R) (name : QName) {r : Record} (hr : R r) :
    (c.indexRecord name r).Holds P R := by
  refine ⟨h.entry, fun {q x} hx => ?_⟩
  simp only [Cache.indexRecord, Table.get?_insert] at hx
  split at hx
  · exact Option.some.inj hx ▸ hr
  · exact h.record hx

theorem indexRecordAt (h : c.Holds P R) (name : QName) {r : Record} (hr : R r) (generation : Nat) :
    (c.indexRecordAt name r generation).2.Holds P R := by
  unfold Cache.indexRecordAt
  split
  · exact h.indexRecord name hr
  · exact h

theorem unindex (h : c.Holds P R) (name : QName) : (c.unindex name).2.Holds P R := by
  refine h.of_subset id fun {q x} hx => ?_
  simp only [Cache.unindex, Table.get?_erase] at hx
  split at hx
  · cases hx
  · exact hx

theorem insert (h : c.Holds P R) (n : NodeId) {ty : Ty} (hty : P ty) (generation : Nat)
    (files : List FileId) : (c.insert n ty generation files).2.Holds P R := by
  have hroom : c.makeRoom.Holds P R := by
    unfold Cache.makeRoom
    split
    · exact h.sweep
    · exact h
  simp only [Cache.insert]
  split
  · exact h.of_subset id id
  · refine ⟨fun {m e} he => ?_, hroom.record⟩
    simp only [Cache.store, Table.get?_insert] at he
    split at he
    · exact Option.some.inj he ▸ hty
    · exact hroom.entry he

theorem keep (h : c.Holds P R) (n : NodeId) {ty : Option Ty} (hty : ∀ t ∈ ty, P t)
    (generation : Nat) (files : List FileId) : (c.keep n ty generation files).Holds P R := by
  cases ty with
  | none => exact h
  | some t => exact h.insert n (hty t rfl) generation files

end Holds

end Cache

/-! ## The engine -/

/-- The rules of an environment keep the properties, and its records have them. -/
structure Env.Upholds (P : Ty → Prop) (R : Record → Prop) (env : Env) : Prop where
  unknown : P .unknown
  rule : ∀ n, (env.rule n).Ensures P R fun t => ∀ u ∈ t, P u
  record : ∀ {q r}, env.found? q = some r → R r

/-- All that is in the cache has the properties. -/
def holding (P : Ty → Prop) (R : Record → Prop) : Protocol where
  inv s := s.cache.Holds P R
  le _ _ := True
  lost _ := False
  refl _ := trivial
  trans _ _ := trivial
  not_lost _ h := h
  lost_act _ h := h

namespace Inference

variable {i : Inference} {e : Engine} {Q : α → Prop}

theorem holding_allows {s s' : Shared} (h : s'.cache.Holds P R) : (holding P R).Allows s s' :=
  ⟨trivial, h⟩

/-- A rule gives what it ensures, if the answers to its questions have the properties. -/
theorem ensures_ruleTask {infer : NodeId → Progress → Task (Option Ty × Progress)} {rule : Rule α}
    (hi : i.env.Upholds P R)
    (hinfer : ∀ n p s, (infer n p).Safe (holding P R) (fun r _ => ∀ t ∈ r.1, P t) s)
    (h : rule.Ensures P R Q) (p : Progress) (s : Shared) :
    (i.ruleTask infer rule p).Safe (holding P R) (fun r _ => Q r.1) s := by
  induction rule generalizing p s with
  | done a => exact fun _ _ => h
  | ask node next ih =>
    rw [ruleTask_ask]
    exact (hinfer node p s).bind fun r s' hs' hr => ih r.1 (h _ (hr.now hs'.inv)) r.2 s'
  | askRecord name next ih =>
    rw [ruleTask_askRecord]
    have hrecord : (i.recordTask name).Safe (holding P R) (fun r _ => ∀ x ∈ r, R x) s := by
      refine safe_recordTask (Q := fun r => ∀ x ∈ r, R x) (fun s' hs' r hr => ?_) ?_
      · rcases Option.or_eq_some_iff.1 hr with hr | ⟨-, hr⟩
        · exact hs'.inv.record hr
        · exact hi.record hr
      · intro s' s'' r _ _ hr hs''
        exact holding_allows (hs''.inv.indexRecordAt name
          (hi.record (Env.found?_of_ownRecord? hr)) i.generation)
    exact hrecord.bind fun r s' hs' hr => ih r (h _ (hr.now hs'.inv)) p s'
  | read file next ih => exact ih h (p.note file) s

/-- The answer to every question has the property, whatever engines that keep it do meanwhile. -/
theorem ensures_typeTask (hi : i.env.Upholds P R) (depth : Nat) (n : NodeId) (p : Progress)
    (s : Shared) :
    (i.typeTask depth n p).Safe (holding P R) (fun r _ => ∀ t ∈ r.1, P t) s := by
  have hcount : ∀ added s', (holding P R).inv s' → (holding P R).Allows s' (s'.count added) :=
    fun _ _ hs' => holding_allows hs'
  have hcut : ∀ p added s, (cutOff p added).Safe (holding P R) (fun r _ => ∀ t ∈ r.1, P t) s :=
    fun _ added _ => safe_count (hcount added) fun _ _ => by simpa using hi.unknown
  induction depth, n, p using i.typeTask_induction generalizing s with
  | outside depth n p h =>
    rw [typeTask_outside h]
    exact safe_count (hcount _) fun _ _ => by simp
  | cycle depth n p h ha =>
    rw [typeTask_cycle h ha]
    exact safe_count (hcount _) (hcut p _ s)
  | tooDeep n p h ha =>
    rw [typeTask_zero h ha]
    exact safe_count (hcount _) (hcut p _ s)
  | derive depth n p h ha ih =>
    rw [typeTask_succ h ha]
    refine safe_count (hcount _) (safe_deriveWith (hcount _)
      (fun s' hs' => holding_allows (hs'.fetch n)) (fun s' x hs' hx _ _ => ?_)
      (fun s' _ _ => ensures_ruleTask hi ih (hi.rule n) _ _) fun r s' hs' hr => .inr ⟨?_, ?_⟩)
    · simpa using hs'.inv.served hx
    · exact holding_allows (hs'.inv.keep n hr i.generation r.2.files)
    · exact fun _ _ => hr

theorem ensures_perform {rule : Rule α} (hi : i.env.Upholds P R) (h : rule.Ensures P R Q)
    (he : e.cache.Holds P R) :
    Q (i.perform rule e).1 ∧ (i.perform rule e).2.cache.Holds P R := by
  obtain hlost | ⟨hrun, hdone⟩ :=
    (ensures_ruleTask hi (ensures_typeTask hi (i.depthLeft e)) h e.toProgress e.toShared).run he
  · exact hlost.elim
  · exact ⟨hdone.now hrun.inv, hrun.inv⟩

/-- New engines side by side give what their rules ensure, under every schedule. -/
theorem ensures_pool {rules : List (Rule α)} {s : Shared} (hi : i.env.Upholds P R)
    (h : ∀ rule ∈ rules, rule.Ensures P R Q) (hs : s.cache.Holds P R) (schedule : List Nat) :
    (∀ a ∈ (Pool.run ⟨rules.map i.task, s⟩ schedule).1, Q a) ∧
      (Pool.run ⟨rules.map i.task, s⟩ schedule).2.cache.Holds P R := by
  have hsafe : ∀ rule ∈ rules, (i.task rule).Safe (holding P R) (fun a _ => Q a) s :=
    fun rule hrule => safe_task (ensures_ruleTask hi (ensures_typeTask hi _) (h rule hrule) {} s)
  obtain hlost | ⟨hrun, hresults⟩ := Pool.run_safe hs hsafe schedule
  · exact hlost.elim
  · refine ⟨fun a ha => ?_, hrun.inv⟩
    obtain ⟨-, -, ha⟩ := exists_of_mem_forall₂ hresults ha
    exact ha

/-- Every type that the engine gives has a property that the rules keep. -/
theorem ensures_infer (hi : i.env.Upholds P R) (n : NodeId) (he : e.cache.Holds P R) :
    ∀ t ∈ (i.infer n e).1, P t :=
  (ensures_perform hi (Rule.ensures_typeOf? n) he).1

end Inference

end MoveTyping
