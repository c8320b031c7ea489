import MoveTyping.Proofs.Infer.Consistent

/-!
# Runs that are not cut off

A question is cut off when its node is under way already or when it is asked too deep. How deep it
is asked depends on what the cache knows, so whether a run is cut off depends on the cache, and on
what other engines do to it. There are two reasons for which it is not. Either the node has a
derivation within the bound: then no cache matters. Or the run is not cut off over a cache that
knows less: then it is enough that no sweep takes away what lies below a known type.

## Main definitions

* `Inference.Exact` — a cache that holds derived types with exactly the files they were derived
  from.
* `Inference.Covering` — a cache that knows all that lies below what it knows.
* `Inference.covering` — the protocol of engines over such a cache.

## Main results

* `Inference.uncut_typeTask` — a node with a derivation within the bound is not cut off.
* `Inference.follows_typeTask` — a node that is not cut off over a cache that knows less is not cut
  off over a covering one.
-/

namespace MoveTyping

variable {α : Type} {n m : NodeId} {x : Cached}

namespace Env

variable {env : Env} {record : QName → Option Record}

/-- A node of the program with a derivation has one of least height. -/
theorem exists_least_height (hn : env.program.contains n = true) {height : Nat}
    {r : Option Ty × Trace} (h : env.derive? record height n = some r) :
    ∃ k < height, env.derive? record (k + 1) n = some r ∧ env.derive? record k n = none := by
  induction height with
  | zero => simp [derive?_zero hn] at h
  | succ height ih =>
    cases hlow : env.derive? record height n with
    | none => exact ⟨height, Nat.lt_succ_self _, h, hlow⟩
    | some r' =>
      have : r' = r := Option.some.inj ((derive?_succ hlow).symm.trans h)
      obtain ⟨k, hk, hr, hnone⟩ := ih (this ▸ hlow)
      exact ⟨k, Nat.lt_succ_of_lt hk, hr, hnone⟩

end Env

/-! ## What caches serve -/

/-- A cache serves all that another one serves. -/
def Cache.Sub (c c' : Cache) : Prop := ∀ n x, c.served? n = some x → c'.served? n = some x

namespace Cache.Sub

variable {c c' c'' : Cache}

theorem refl (c : Cache) : c.Sub c := fun _ _ h => h

theorem trans (h : c.Sub c') (h' : c'.Sub c'') : c.Sub c'' := fun n x hx => h' n x (h n x hx)

theorem eq_none (h : c.Sub c') (hn : c'.served? n = none) : c.served? n = none := by
  refine Option.eq_none_iff_forall_ne_some.2 fun x hx => ?_
  cases hn.symm.trans (h n x hx)

end Cache.Sub

namespace Shared

theorem sweeps_fetched (s : Shared) (n : NodeId) :
    (s.fetched n).cache.counters.sweeps = s.cache.counters.sweeps := by
  simp only [fetched, Cache.fetch]
  split
  · split <;> rfl
  · rfl

@[simp] theorem served?_fetched (s : Shared) (n m : NodeId) :
    (s.fetched n).cache.served? m = s.cache.served? m := Cache.served?_fetch ..

theorem sweeps_indexed (s : Shared) (q : QName) (r : Record) (generation : Nat) :
    (s.indexed q r generation).cache.counters.sweeps = s.cache.counters.sweeps := by
  obtain ⟨index, hindex⟩ := s.cache.exists_indexRecordAt q r generation
  rw [indexed, hindex]

theorem served?_indexed (s : Shared) (q : QName) (r : Record) (generation : Nat) (n : NodeId) :
    (s.indexed q r generation).cache.served? n = s.cache.served? n := by
  obtain ⟨index, hindex⟩ := s.cache.exists_indexRecordAt q r generation
  rw [indexed, hindex]
  exact Cache.served?_congr (by rfl) (by rfl) (by rfl) n

theorem sweeps_le_act (s : Shared) (a : Action) :
    s.cache.counters.sweeps ≤ (s.act a).2.cache.counters.sweeps := by
  cases a with
  | count added => exact Nat.le_refl _
  | access call =>
    cases call with
    | fetch n => exact (s.sweeps_fetched n).ge
    | insert n ty generation files =>
      have hframe : s.cache.Frame (fun _ => none) (s.cache.insert n ty generation files).2 :=
        .insert ..
      exact hframe.sweeps_le
    | record q => exact Nat.le_refl _
    | indexAt q r generation => exact (s.sweeps_indexed q r generation).ge

end Shared

namespace Inference

variable {i : Inference} {e : Engine} {c : Cache} {depth k : Nat} {record : QName → Option Record}

/-- A cache whose types are derived, with exactly the files that their derivations read. -/
abbrev Exact (i : Inference) (record : QName → Option Record) (c : Cache) : Prop :=
  i.Consistent (i.env.exactTyping record) c

theorem inferWithin_derives (hc : i.Exact record e.cache)
    (hcuts : (i.inferWithin depth n e).2.cuts = e.cuts) :
    i.Exact record (i.inferWithin depth n e).2.cache ∧
      ∃ u, i.env.Derives record n (i.inferWithin depth n e).1 u ∧
        (i.inferWithin depth n e).2.files.toFinset = e.files.toFinset ∪ u.files := by
  obtain ⟨hc, F, ⟨u, hu, rfl⟩, hfiles⟩ := inferWithin_yields depth n e hc hcuts
  exact ⟨hc, u, hu, hfiles⟩

/-! ## Derivations within the bound -/

/-- Engines over an exact cache, none of which is cut off. -/
abbrev uncut (i : Inference) (record : QName → Option Record) (k : Nat) : Protocol :=
  (i.following (i.env.exactTyping record) k).strict

theorem uncut_stricter : (i.uncut record k).Stricter (i.following (i.env.exactTyping record) k) :=
  Protocol.strict_stricter _

/-- A rule with a value whose questions have derivations of some height, while no node under way
has: the run is not cut off if this is so for questions. -/
theorem uncut_ruleTask {height : Nat}
    (hinfer : ∀ n p s r, (∀ a ∈ p.active, i.env.derive? record height a = none) →
      i.env.derive? record height n = some r →
      (i.typeTask depth n p).Safe (i.uncut record k) (fun _ _ => True) s)
    (rule : Rule α) (p : Progress) (s : Shared) {r : α × Trace}
    (ha : ∀ a ∈ p.active, i.env.derive? record height a = none)
    (hr : rule.eval? (i.env.derive? record height) record = some r) :
    (i.ruleTask (i.typeTask depth) rule p).Safe (i.uncut record k) (fun _ _ => True) s := by
  induction rule generalizing p s r with
  | done a => exact fun _ _ => trivial
  | ask node next ih =>
    obtain ⟨t, u, v, ht, hv, -⟩ := Rule.eval?_ask_eq_some.1 hr
    rw [ruleTask_ask]
    have hnode := ((hinfer node p s _ ha ht).and uncut_stricter
      (yields_typeTask depth node p s)).and_always (i.always_typeTask depth node p)
    refine hnode.bind fun r s' hs' hr => ?_
    obtain ⟨⟨-, F, ⟨u', hu', -⟩, -⟩, hactive⟩ := hr.now hs'.inv
    have hty : r.1 = t := (hu'.unique ⟨height, ht⟩).1
    rw [hty]
    exact ih t r.2 s' (hactive ▸ ha) hv
  | askRecord name next ih =>
    obtain ⟨v, hv, -⟩ := Rule.eval?_askRecord_eq_some.1 hr
    rw [ruleTask_askRecord]
    have hrecord : (i.recordTask name).Safe (i.uncut record k) (fun r _ => r = record name) s :=
      recordTask_yields uncut_stricter (fun s q r hs hc => ⟨trivial, hs.1, hc⟩) name s
    refine hrecord.bind fun r s' hs' hr => ?_
    obtain rfl := hr.now hs'.inv
    exact ih _ p s' ha hv
  | read file next ih =>
    obtain ⟨v, hv, -⟩ := Rule.eval?_read_eq_some.1 hr
    exact ih (p.note file) s (by simpa using ha) hv

/-- A node with a derivation within the bound is not cut off, whatever the cache knows and whatever
other engines do, as long as the nodes under way are higher up. -/
theorem uncut_typeTask {height : Nat} {r : Option Ty × Trace} {p : Progress}
    (hle : height ≤ depth) (ha : ∀ a ∈ p.active, i.env.derive? record height a = none)
    (hr : i.env.derive? record height n = some r) (s : Shared) :
    (i.typeTask depth n p).Safe (i.uncut record k) (fun _ _ => True) s := by
  have hcount : ∀ {added : EngineCounters}, added.cycles + added.depthCutoffs = 0 →
      ∀ s', (i.uncut record k).inv s' → (i.uncut record k).Allows s' (s'.count added) := by
    intro added hadded s' hs'
    exact ⟨trivial, (following_count hadded s' hs').inv⟩
  induction depth, n, p using i.typeTask_induction generalizing height r s with
  | outside depth n p h =>
    rw [typeTask_outside h]
    exact safe_count (hcount rfl) fun _ _ => trivial
  | cycle depth n p h hactive => simp [ha n hactive] at hr
  | tooDeep n p h hactive =>
    obtain rfl := Nat.le_zero.1 hle
    simp [Env.derive?_zero h] at hr
  | derive depth n p h hactive ih =>
    -- the nodes that the rule asks for have derivations below the least height of `n`
    obtain ⟨l, hl, hsucc, hnone⟩ := Env.exists_least_height h hr
    obtain ⟨u, hu, -⟩ := (Env.derive?_succ_eq_some h).1 hsucc
    have hlow : ∀ a ∈ (p.enter n).active, i.env.derive? record l a = none := by
      intro a hmem
      rcases List.mem_cons.1 hmem with rfl | hmem
      · exact hnone
      · by_contra hsome
        obtain ⟨r', hr'⟩ := Option.ne_none_iff_exists'.1 hsome
        exact absurd (ha a hmem) (by simp [Env.derive?_mono (Nat.le_of_lt hl) hr'])
    have hrule : ∀ s, (i.ruleTask (i.typeTask depth) (i.env.rule n) (p.enter n)).Safe
        (i.uncut record k) (fun _ _ => True) s := fun s =>
      uncut_ruleTask (fun m p s r ha hr => ih m p (by omega) ha hr s) _ _ s hlow hu
    rw [typeTask_succ h hactive]
    refine safe_count (hcount rfl) (safe_deriveWith (hcount rfl)
      (fun s' hs' => ⟨trivial, hs'.1, hs'.2.fetch n⟩) (fun _ _ _ _ _ _ => trivial)
      (fun s' _ _ => (hrule _).and uncut_stricter
        (yields_ruleTask (yields_typeTask depth) (i.env.rule n) (p.enter n) _))
      fun r s' hs' hr => .inr ?_)
    obtain ⟨-, F, hF, hfiles⟩ := hr
    exact ⟨⟨trivial, hs'.inv.1, (hs'.inv.2.keep_rule h hF hfiles).1⟩, fun _ _ => trivial⟩

/-! ## What a run leaves in the cache -/

namespace Exact

/-- Two exact caches agree on what both serve. -/
theorem served_unique {c' : Cache} {y : Cached} (hc : i.Exact record c) (hc' : i.Exact record c')
    (hx : c.served? n = some x) (hy : c'.served? n = some y) : x = y := by
  obtain ⟨u, hu, hfiles⟩ := hc.served hx
  obtain ⟨v, hv, hfiles'⟩ := hc'.served hy
  obtain ⟨hty, rfl⟩ := hu.unique hv
  obtain ⟨files, hdeps⟩ := hc.deps hx
  obtain ⟨files', hdeps'⟩ := hc'.deps hy
  have hsame : ∀ g, g ≠ n.file → (g ∈ files ↔ g ∈ files') := by
    intro g hg
    have := Finset.ext_iff.1 (hfiles.symm.trans hfiles') g
    simpa [hdeps, hdeps', hg] using this
  cases x
  cases y
  simp only [Option.some.injEq] at hty hdeps hdeps'
  rw [hty, hdeps, hdeps', Cache.otherFiles_congr hsame]

/-- A known result of the current generation is kept. -/
theorem served_keep (hc : i.Exact record c) {ty : Ty} (hknown : ty.hasUnknown = false)
    (files : List FileId) :
    (c.keep n (some ty) i.generation files).served? n =
      some ⟨ty, Cache.otherFiles n.file files⟩ := by
  rw [hc.generation]
  exact hc.timed.served?_keep (.refl c) hknown n files

end Exact

/-- A node whose answer has no unknown parts is served after the answer. -/
theorem inferWithin_serves {ty : Ty} (hc : i.Exact record e.cache)
    (hcuts : (i.inferWithin depth n e).2.cuts = e.cuts)
    (hty : (i.inferWithin depth n e).1 = some ty) (hknown : ty.hasUnknown = false) :
    ∃ x, (i.inferWithin depth n e).2.cache.served? n = some x := by
  cases h : i.env.program.contains n with
  | false =>
    rw [inferWithin_outside h] at hty
    exact nomatch hty
  | true =>
    obtain ⟨ha, depth, rfl⟩ := depth_pos_of_uncut h hcuts
    cases hx : e.cache.served? n with
    | some x =>
      rw [inferWithin_hit h ha hx]
      exact ⟨x, by simpa using hx⟩
    | none =>
      have hbody : i.Exact record (i.body depth n e).2.cache :=
        (performWith_yields depth _ _ (hc.fetch n)
          ((cuts_inferWithin_miss h ha hx).symm.trans hcuts)).1
      rw [inferWithin_miss h ha hx] at hty
      rw [cache_inferWithin_miss h ha hx, kept, hty]
      exact ⟨_, hbody.served_keep hknown _⟩

theorem performWith_served
    (hinfer : ∀ n (e : Engine) {t u}, i.Exact record e.cache →
      (i.inferWithin depth n e).2.cuts = e.cuts → i.env.Derives record n t u →
      ∀ {m x}, (i.inferWithin depth n e).2.cache.served? m = some x →
        e.cache.served? m = some x ∨ m ∈ u.nodes)
    (rule : Rule α) (e : Engine) {a : α} {v : Trace} (hc : i.Exact record e.cache)
    (hcuts : (i.performWith (i.inferWithin depth) rule e).2.cuts = e.cuts)
    (hv : i.env.Evaluates record rule a v)
    (hm : (i.performWith (i.inferWithin depth) rule e).2.cache.served? m = some x) :
    e.cache.served? m = some x ∨ m ∈ v.nodes := by
  induction rule generalizing e v with
  | done a => exact .inl hm
  | ask node next ih =>
    obtain ⟨t, u, w, hu, hw, rfl⟩ := Env.evaluates_ask.1 hv
    simp only [performWith_ask] at hcuts hm
    obtain ⟨huncut, hrest⟩ := (i.frame_inferWithin depth node e).uncut_split
      (i.frame_performWith depth (next (i.inferWithin depth node e).1) _) hcuts
    obtain ⟨hc', u', hu', -⟩ := inferWithin_derives hc huncut
    have hty : (i.inferWithin depth node e).1 = t := (hu'.unique hu).1
    rw [hty] at hrest hm
    rcases ih t _ hc' hrest hw hm with hm | hm
    · exact (hinfer node e hc huncut hu hm).imp_right (Finset.mem_union_left _)
    · exact .inr (Finset.mem_union_right _ hm)
  | askRecord name next ih =>
    obtain ⟨w, hw, rfl⟩ := Env.evaluates_askRecord.1 hv
    rw [performWith_askRecord, hc.ask_fst] at hcuts hm
    refine (ih (record name) (i.ask name e).2 (hc.lookup name) hcuts hw hm).imp_left ?_
    intro h
    exact (i.served?_lookup name e.cache m).symm.trans h
  | read file next ih =>
    obtain ⟨w, hw, rfl⟩ := Env.evaluates_read.1 hv
    rw [performWith_read] at hcuts hm
    simpa [Trace.addFile] using ih _ (by simpa using hc) (by simpa using hcuts) hw hm

/-- A run leaves nothing in the cache but what was there and what it goes through. -/
theorem inferWithin_served {t : Option Ty} {u : Trace} (hc : i.Exact record e.cache)
    (hcuts : (i.inferWithin depth n e).2.cuts = e.cuts) (hu : i.env.Derives record n t u)
    (hm : (i.inferWithin depth n e).2.cache.served? m = some x) :
    e.cache.served? m = some x ∨ m ∈ u.nodes := by
  induction depth, n, e, hcuts using i.uncut_induction generalizing t u m x with
  | outside depth n e hcuts h =>
    rw [inferWithin_outside h] at hm
    exact .inl hm
  | hit depth n e hcuts y h ha hx =>
    rw [inferWithin_hit h ha hx] at hm
    exact .inl (by simpa using hm)
  | miss depth n e hcuts h ha hx hbody ih =>
    obtain ⟨v, hv, rfl⟩ := (Env.derives_iff h).1 hu
    rw [cache_inferWithin_miss h ha hx] at hm
    rcases Cache.served?_of_keep hm with rfl | hm
    · exact .inr (Finset.mem_insert_self _ _)
    · have hserved := performWith_served
        (fun m e _ _ hc hcuts hu _ _ hm => ih m e hcuts hc hu hm)
        (i.env.rule n) ((e.consulted n).enter n) (hc.fetch n) hbody hv hm
      exact hserved.imp (by simp) Finset.mem_insert_of_mem

/-! ## A cache that knows more -/

/-- A cache serves all of these nodes that have a derived type without unknown parts. -/
def Serves (i : Inference) (record : QName → Option Record) (c : Cache) (nodes : Finset NodeId) :
    Prop :=
  ∀ m ∈ nodes, ∀ {ty u}, i.env.Derives record m (some ty) u → ty.hasUnknown = false →
    ∃ x, c.served? m = some x

/-- A cache that serves what lies below the nodes that it serves. -/
def Covering (i : Inference) (record : QName → Option Record) (c : Cache) : Prop :=
  ∀ {n x t u}, c.served? n = some x → i.env.Derives record n t u → i.Serves record c u.nodes

/-- What a cache comes to that knows all that another one knows after a run: the same again, and
what the run goes through. -/
structure Follows (i : Inference) (record : QName → Option Record) (cold : Cache)
    (nodes : Finset NodeId) (warm : Cache) : Prop where
  sub : cold.Sub warm
  serves : i.Serves record warm nodes

namespace Follows

variable {cold warm warm' : Cache} {nodes nodes' : Finset NodeId}

theorem mono (h : i.Follows record cold nodes warm) (hsub : warm.Sub warm') :
    i.Follows record cold nodes warm' := by
  refine ⟨h.sub.trans hsub, fun m hm _ _ hu hknown => ?_⟩
  obtain ⟨x, hx⟩ := h.serves m hm hu hknown
  exact ⟨x, hsub m x hx⟩

theorem union (h : i.Serves record warm nodes) (h' : i.Follows record cold nodes' warm) :
    i.Follows record cold (nodes ∪ nodes') warm := by
  refine ⟨h'.sub, fun m hm _ _ hu hknown => ?_⟩
  rcases Finset.mem_union.1 hm with hm | hm
  · exact h m hm hu hknown
  · exact h'.serves m hm hu hknown

end Follows

/-- Keeping a result forgets nothing unless there is a sweep. -/
theorem Exact.grows_keep {t : Option Ty} {u : Trace} {files : List FileId}
    (hc : i.Exact record c) (hu : i.env.Derives record n t u)
    (hc' : i.Exact record (c.keep n t i.generation files))
    (hsweeps : (c.keep n t i.generation files).counters.sweeps = c.counters.sweeps)
    (hx : c.served? m = some x) : (c.keep n t i.generation files).served? m = some x := by
  cases t with
  | none => exact hx
  | some ty =>
    by_cases hm : m = n
    · subst hm
      obtain ⟨v, hv, -⟩ := hc.served hx
      have hty : x.ty = ty := Option.some.inj (hv.unique hu).1
      have hkeep := hc.served_keep (n := m) (hty ▸ hc.known hx) files
      rw [hc.served_unique hc' hx hkeep]
      exact hkeep
    · exact (Cache.served?_insert_of_ne hm hsweeps).trans hx

/-- Keeping a result on both sides, after the run of a rule. -/
theorem Follows.keep {cold warm : Cache} {nodes : Finset NodeId} {t : Option Ty}
    {u : Trace} {files files' : List FileId} (h : i.Follows record cold nodes warm)
    (hcovering : i.Covering record warm) (hexact : i.Exact record warm)
    (hu : i.env.Derives record n t u) (hnodes : u.nodes = insert n nodes)
    (hcold : i.Exact record (cold.keep n t i.generation files))
    (hwarm : i.Exact record (warm.keep n t i.generation files'))
    (hgrows : warm.Sub (warm.keep n t i.generation files')) :
    i.Covering record (warm.keep n t i.generation files') ∧
      i.Follows record (cold.keep n t i.generation files) u.nodes
        (warm.keep n t i.generation files') := by
  have hown : ∀ {ty v}, i.env.Derives record n (some ty) v → ty.hasUnknown = false →
      ∃ x, (warm.keep n t i.generation files').served? n = some x := by
    intro ty v hv hknown
    rw [(hu.unique hv).1]
    exact ⟨_, hexact.served_keep hknown files'⟩
  have hserves : i.Serves record (warm.keep n t i.generation files') u.nodes := by
    intro m hm ty v hv hknown
    rw [hnodes] at hm
    rcases Finset.mem_insert.1 hm with rfl | hm
    · exact hown hv hknown
    · exact (h.mono hgrows).serves m hm hv hknown
  refine ⟨?_, ?_, hserves⟩
  · intro m x t' u' hx hu'
    rcases Cache.served?_of_keep hx with rfl | hx
    · exact (hu.unique hu').2 ▸ hserves
    · intro l hl ty v hv hknown
      obtain ⟨y, hy⟩ := hcovering hx hu' l hl hv hknown
      exact ⟨y, hgrows l y hy⟩
  · intro m x hx
    rcases Cache.served?_of_keep hx with rfl | hx'
    · obtain ⟨v, hv, -⟩ := hcold.served hx
      obtain ⟨y, hy⟩ := hown hv (hcold.known hx)
      rwa [hcold.served_unique hwarm hx hy]
    · exact hgrows m x (h.sub m x hx')

/-- A covering cache that serves a node knows already what another run goes through for it. -/
theorem Follows.of_served {cold : Engine} {warm : Cache} {u : Trace}
    (hexact : i.Exact record cold.cache) (hwarm : i.Exact record warm)
    (hcovering : i.Covering record warm) (hsub : cold.cache.Sub warm)
    (hcuts : (i.inferWithin depth n cold).2.cuts = cold.cuts) (hx : warm.served? n = some x)
    (hu : i.env.Derives record n (some x.ty) u) :
    i.Follows record (i.inferWithin depth n cold).2.cache u.nodes warm := by
  have hcold := (inferWithin_derives hexact hcuts).1
  refine ⟨fun m y hy => ?_, hcovering hx hu⟩
  rcases inferWithin_served hexact hcuts hu hy with hy | hm
  · exact hsub m y hy
  · obtain ⟨v, hv, -⟩ := hcold.served hy
    obtain ⟨z, hz⟩ := hcovering hx hu m hm hv (hcold.known hy)
    rwa [hcold.served_unique hwarm hy hz]

/-! ## Engines over a covering cache -/

/-- The cache covers what it knows, and what is known stays known, until there is a sweep. -/
def covering (i : Inference) (record : QName → Option Record) (k sweeps : Nat) : Protocol where
  inv s := (i.following (i.env.exactTyping record) k).inv s ∧ s.cache.counters.sweeps = sweeps ∧
    i.Covering record s.cache
  le s s' := s.cache.Sub s'.cache
  lost s := sweeps < s.cache.counters.sweeps
  refl s := .refl s.cache
  trans h h' := h.trans h'
  not_lost h hlost := Nat.lt_irrefl _ (h.2.1 ▸ hlost)
  lost_act a h := Nat.lt_of_lt_of_le h (Shared.sweeps_le_act _ a)

variable {sweeps : Nat}

theorem covering_stricter :
    (i.covering record k sweeps).Stricter (i.following (i.env.exactTyping record) k) :=
  ⟨fun h => h.1, fun _ => trivial⟩

/-- A step that leaves what is served as it was. -/
theorem covering_allows {s s' : Shared} (hs : (i.covering record k sweeps).inv s)
    (hs' : (i.following (i.env.exactTyping record) k).inv s')
    (hsweeps : s'.cache.counters.sweeps = s.cache.counters.sweeps)
    (hserved : ∀ n, s'.cache.served? n = s.cache.served? n) :
    (i.covering record k sweeps).Allows s s' := by
  refine ⟨fun n x hx => (hserved n).trans hx, hs', hsweeps.trans hs.2.1, ?_⟩
  intro n x t u hx hu m hm _ _ hv hknown
  rw [hserved m]
  exact hs.2.2 ((hserved n).symm.trans hx) hu m hm hv hknown

/-- Storing a derived type, on both sides. Unless that sweeps the cache, all that is known stays
known. -/
theorem covering_keep {s : Shared} {cold : Cache} {nodes : Finset NodeId} {t : Option Ty}
    {u : Trace} {files files' : List FileId} (hs : (i.covering record k sweeps).inv s)
    (hfollows : i.Follows record cold nodes s.cache) (hu : i.env.Derives record n t u)
    (hnodes : u.nodes = insert n nodes)
    (hcold : i.Exact record (cold.keep n t i.generation files))
    (hwarm : i.Exact record (s.cache.keep n t i.generation files')) :
    (i.covering record k sweeps).lost (s.kept n t i.generation files') ∨
      (i.covering record k sweeps).Allows s (s.kept n t i.generation files') ∧
        i.Follows record (cold.keep n t i.generation files) u.nodes
          (s.kept n t i.generation files').cache := by
  obtain ⟨⟨hcuts, hexact⟩, hsweeps, hcovering⟩ := hs
  have hkeep : s.cache.Frame i.env.found? (s.cache.keep n t i.generation files') := .keep ..
  rcases Nat.eq_or_lt_of_le hkeep.sweeps_le with heq | hlt
  · have hgrows : s.cache.Sub (s.cache.keep n t i.generation files') :=
      fun m x hm => Exact.grows_keep hexact hu hwarm heq.symm hm
    obtain ⟨hcovering', hfollows'⟩ :=
      hfollows.keep hcovering hexact hu hnodes hcold hwarm hgrows
    exact .inr ⟨⟨hgrows, ⟨hcuts, hwarm⟩, heq.symm.trans hsweeps, hcovering'⟩, hfollows'⟩
  · exact .inl (hsweeps ▸ hlt)

theorem follows_ruleTask
    (hinfer : ∀ n p s (cold : Engine), i.Exact record cold.cache → cold.cache.Sub s.cache →
      p.active = cold.active → (i.inferWithin depth n cold).2.cuts = cold.cuts →
      (i.typeTask depth n p).Safe (i.covering record k sweeps) (fun r s' =>
        ∃ u, i.env.Derives record n r.1 u ∧
          i.Follows record (i.inferWithin depth n cold).2.cache u.nodes s'.cache) s)
    (rule : Rule α) (p : Progress) (s : Shared) (cold : Engine)
    (hexact : i.Exact record cold.cache) (hsub : cold.cache.Sub s.cache)
    (hactive : p.active = cold.active)
    (hcuts : (i.performWith (i.inferWithin depth) rule cold).2.cuts = cold.cuts) :
    (i.ruleTask (i.typeTask depth) rule p).Safe (i.covering record k sweeps) (fun r s' =>
      ∃ v, i.env.Evaluates record rule r.1 v ∧
        i.Follows record (i.performWith (i.inferWithin depth) rule cold).2.cache v.nodes
          s'.cache) s := by
  induction rule generalizing p s cold with
  | done a =>
    exact fun s' hs' => ⟨{}, ⟨0, rfl⟩, hsub.trans hs'.le, fun m hm => by simp at hm⟩
  | ask node next ih =>
    simp only [performWith_ask] at hcuts ⊢
    have hcold := i.frame_inferWithin depth node cold
    obtain ⟨hfirst, hrest⟩ := hcold.uncut_split (i.frame_performWith depth _ _) hcuts
    obtain ⟨hexact', u', hu', -⟩ := inferWithin_derives hexact hfirst
    rw [ruleTask_ask]
    refine ((hinfer node p s cold hexact hsub hactive hfirst).and_always
      (i.always_typeTask depth node p)).bind fun r s' hs' hr => ?_
    obtain ⟨⟨u, hu, hfollows⟩, hactive'⟩ := hr.now hs'.inv
    -- both runs get the same answer, so they go on with the same rule
    have hty : r.1 = (i.inferWithin depth node cold).1 := (hu.unique hu').1
    rw [hty] at hu ⊢
    refine (ih _ r.2 s' _ hexact' hfollows.sub (by rw [hactive', hcold.active, hactive])
      hrest).imp fun r' s'' hs'' hr' => ?_
    obtain ⟨v, hv, hfollows'⟩ := hr'
    exact ⟨u.union v, Env.evaluates_ask.2 ⟨_, u, v, hu, hv, rfl⟩,
      .union (hfollows.mono hs''.le).serves hfollows'⟩
  | askRecord name next ih =>
    simp only [performWith_askRecord, hexact.ask_fst] at hcuts ⊢
    rw [ruleTask_askRecord]
    have hrecord : (i.recordTask name).Safe (i.covering record k sweeps)
        (fun r _ => r = record name) s :=
      recordTask_yields covering_stricter (fun s q r hs hc =>
        covering_allows hs ⟨hs.1.1, hc⟩ (s.sweeps_indexed ..) (s.served?_indexed _ _ _)) name s
    refine hrecord.bind fun r s' hs' hr => ?_
    obtain rfl := hr.now hs'.inv
    have hsub' : (i.ask name cold).2.cache.Sub s'.cache := fun n x hx =>
      hs'.le n x (hsub n x ((i.served?_lookup name cold.cache n).symm.trans hx))
    refine (ih _ p s' _ (hexact.lookup name) hsub' hactive hcuts).imp fun r s'' _ hr => ?_
    obtain ⟨v, hv, hfollows⟩ := hr
    exact ⟨v.addRecord name, Env.evaluates_askRecord.2 ⟨v, hv, rfl⟩, hfollows⟩
  | read file next ih =>
    refine (ih (p.note file) s (cold.note file) hexact hsub (by simpa using hactive)
      hcuts).imp fun r s' _ hr => ?_
    obtain ⟨v, hv, hfollows⟩ := hr
    exact ⟨v.addFile file, Env.evaluates_read.2 ⟨v, hv, rfl⟩, hfollows⟩

/-- A question to an engine over a covering cache is not cut off if it is not over a cache that
knows less, unless a sweep comes in between. -/
theorem follows_typeTask (depth : Nat) (n : NodeId) (p : Progress) (s : Shared) (cold : Engine)
    (hexact : i.Exact record cold.cache) (hsub : cold.cache.Sub s.cache)
    (hactive : p.active = cold.active)
    (hcuts : (i.inferWithin depth n cold).2.cuts = cold.cuts) :
    (i.typeTask depth n p).Safe (i.covering record k sweeps) (fun r s' =>
      ∃ u, i.env.Derives record n r.1 u ∧
        i.Follows record (i.inferWithin depth n cold).2.cache u.nodes s'.cache) s := by
  have hcount : ∀ {added : EngineCounters}, added.cycles + added.depthCutoffs = 0 → ∀ s',
      (i.covering record k sweeps).inv s' →
      (i.covering record k sweeps).Allows s' (s'.count added) := by
    intro added hadded s' hs'
    exact covering_allows hs' (following_count hadded s' hs'.1).inv rfl fun _ => rfl
  induction depth, n, p using i.typeTask_induction generalizing s cold with
  | outside depth n p h =>
    rw [typeTask_outside h, inferWithin_outside h]
    exact safe_count (hcount rfl) fun s' hs' =>
      ⟨{}, ⟨0, Env.derive?_of_not_contains h⟩, hsub.trans hs'.le, fun m hm => by simp at hm⟩
  | cycle depth n p h ha => exact absurd (hactive ▸ ha) (depth_pos_of_uncut h hcuts).1
  | tooDeep n p h ha =>
    obtain ⟨-, depth, hdepth⟩ := depth_pos_of_uncut h hcuts
    cases hdepth
  | derive depth n p h ha ih =>
    have ha' : n ∉ cold.active := hactive ▸ ha
    obtain ⟨hcold, w, hw, -⟩ := inferWithin_derives hexact hcuts
    have hmiss : ∀ s', (i.covering record k sweeps).Allows s s' → s'.cache.served? n = none →
        (i.ruleTask (i.typeTask depth) (i.env.rule n) (p.enter n)).Safe (i.covering record k sweeps)
          (fun r s'' => (cold.cache.served? n = none ∧
              ∃ v, i.env.Evaluates record (i.env.rule n) r.1 v ∧
                i.Follows record (i.body depth n cold).2.cache v.nodes s''.cache) ∧
            ∃ F, (i.env.rule n).Yields (i.env.exactTyping record).holds record r.1 F ∧
              r.2.files.toFinset = (p.enter n).files.toFinset ∪ F) (s'.fetched n) := by
      intro s' hs' hx
      have hx' : cold.cache.served? n = none := (hsub.trans hs'.le).eq_none hx
      refine ((follows_ruleTask (fun m p s cold => ih m p s cold) (i.env.rule n) (p.enter n) _
        ((cold.consulted n).enter n) (hexact.fetch n) ?_ (congrArg (List.cons n) hactive)
        ((cuts_inferWithin_miss h ha' hx').symm.trans hcuts)).imp
          fun r s'' _ hr => ⟨hx', hr⟩).and covering_stricter
        (yields_ruleTask (yields_typeTask depth) (i.env.rule n) (p.enter n) _)
      intro m x hm
      simpa using hs'.le m x (hsub m x (by simpa using hm))
    rw [typeTask_succ h ha]
    refine safe_count (hcount rfl) (safe_deriveWith (hcount rfl)
      (fun s' hs' => covering_allows hs' ⟨hs'.1.1, hs'.1.2.fetch n⟩ (s'.sweeps_fetched n)
        fun m => by simp) ?_ hmiss ?_)
    · intro s' x hs' hx s'' hs''
      obtain ⟨hinv, -, hcovering⟩ := hs'.inv
      obtain ⟨u, hu, -⟩ := hinv.2.served hx
      have hfollows := Follows.of_served hexact hinv.2 hcovering (hsub.trans hs'.le) hcuts hx hu
      have hle : s'.cache.Sub s''.cache := fun m y hy => hs''.le m y (by simpa using hy)
      exact ⟨u, hu, hfollows.mono hle⟩
    · -- both sides keep the result of the rule
      rintro r s' hs' ⟨⟨hx, v, hv, hfollows⟩, F, hF, hfiles⟩
      have hwarm := (hs'.inv.1.2.keep_rule h hF hfiles).1
      have hu : i.env.Derives record n r.1 (v.addNode n) := (Env.derives_iff h).2 ⟨v, hv, rfl⟩
      have hty : (i.body depth n cold).1 = r.1 := by
        rw [inferWithin_miss h ha' hx] at hw
        exact (hw.unique hu).1
      rw [cache_inferWithin_miss h ha' hx, kept, hty] at hcold ⊢
      obtain hlost | ⟨hallows, hfollows'⟩ := covering_keep hs'.inv hfollows hu rfl hcold hwarm
      · exact .inl hlost
      · exact .inr ⟨hallows, fun s'' hs'' => ⟨_, hu, hfollows'.mono hs''.le⟩⟩

end Inference

end MoveTyping
