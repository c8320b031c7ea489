import MoveTyping.Proofs.Infer.Run

/-!
# Asking again

What a run leaves in the cache, seen from the cache that it started from. A type that the cache
served then is taken as given, be it derived or not, and all else follows from the rules: so a run
that is neither cut off nor swept settles each node in one way only, however often and over however
much of its own results it comes back to the node. A second run finds what the first has left, and
comes to the same answer.

## Main definitions

* `Inference.settle?`, `Inference.Settles` — the type of a node, given what a cache serves.
* `Inference.Grown` — a cache that serves what another one does, and else what that one settles.
* `Inference.Primed`, `Inference.Echoes` — a run made again over what it left, and what comes of it.
-/

namespace MoveTyping

variable {α : Type} {n m : NodeId} {x : Cached}

/-- Between two states of an engine nothing is cut off and nothing is swept. -/
structure Engine.Quiet (e e' : Engine) : Prop where
  cuts : e'.cuts = e.cuts
  sweeps : e'.cache.counters.sweeps = e.cache.counters.sweeps

/-- A quiet run is quiet in its parts. -/
theorem Engine.Quiet.split {found : QName → Option Record} {e e' e'' : Engine}
    (hquiet : e.Quiet e'') (h : e.Frame found e') (h' : e'.Frame found e'') :
    e.Quiet e' ∧ e'.Quiet e'' := by
  obtain ⟨hcuts, hcuts'⟩ := h.uncut_split h' hquiet.cuts
  obtain ⟨hsweeps, hsweeps'⟩ := h.cache.unswept_split h'.cache hquiet.sweeps
  exact ⟨⟨hcuts, hsweeps⟩, hcuts', hsweeps'⟩

namespace Inference

variable {i : Inference} {e : Engine} {base c : Cache} {depth : Nat} {t t' : Option Ty}

/-! ## Types over a cache -/

/-- The record of a name in the index of a cache, or else where an engine looks for it. -/
def recordOver (i : Inference) (base : Cache) (q : QName) : Option Record :=
  (base.record? q).or (i.env.found? q)

/-- The type of a node, if the nodes that its rule asks for have one. Nothing is asked for a node
that the cache serves. -/
def settleStep (i : Inference) (base : Cache) (type : NodeId → Option (Option Ty × Trace))
    (n : NodeId) : Option (Option Ty × Trace) :=
  if i.env.program.contains n then
    match base.served? n with
    | some x => some (some x.ty, {})
    | none => (i.env.rule n).eval? type (i.recordOver base)
  else some (none, {})

/-- The type of a node over a cache, by a derivation of less than a given height. -/
def settle? (i : Inference) (base : Cache) : Nat → NodeId → Option (Option Ty × Trace)
  | 0 => fun _ => none
  | height + 1 => i.settleStep base (i.settle? base height)

theorem settle?_succ {height : Nat} {r : Option Ty × Trace}
    (h : i.settle? base height n = some r) : i.settle? base (height + 1) n = some r := by
  induction height generalizing n r with
  | zero => exact nomatch h
  | succ height ih =>
    unfold settle? settleStep at h ⊢
    split at h
    next hn =>
      rw [if_pos hn]
      cases hx : base.served? n with
      | some x => simpa only [hx] using h
      | none =>
        rw [hx] at h
        exact Rule.eval?_mono (fun _ _ => ih) h
    next hn => rwa [if_neg hn]

theorem settle?_mono {height height' : Nat} (hle : height ≤ height') {r : Option Ty × Trace}
    (h : i.settle? base height n = some r) : i.settle? base height' n = some r := by
  induction hle with
  | refl => exact h
  | step _ ih => exact settle?_succ ih

/-- A node has a type over a cache. -/
def Settles (i : Inference) (base : Cache) (n : NodeId) (t : Option Ty) : Prop :=
  ∃ height u, i.settle? base height n = some (t, u)

/-- A node has at most one type over a cache. -/
theorem Settles.unique (h : i.Settles base n t) (h' : i.Settles base n t') : t = t' := by
  obtain ⟨k, u, hk⟩ := h
  obtain ⟨k', u', hk'⟩ := h'
  have hk := settle?_mono (Nat.le_max_left k k') hk
  have hk' := settle?_mono (Nat.le_max_right k k') hk'
  rw [hk] at hk'
  exact (Prod.mk.inj (Option.some.inj hk')).1

/-- A rule has a value over a cache. -/
def SettlesRule (i : Inference) (base : Cache) (rule : Rule α) (a : α) : Prop :=
  ∃ height u, rule.eval? (i.settle? base height) (i.recordOver base) = some (a, u)

theorem SettlesRule.done (a : α) : i.SettlesRule base (.done a) a := ⟨0, {}, rfl⟩

theorem SettlesRule.ask {next : Option Ty → Rule α} {a : α} (hn : i.Settles base n t)
    (hnext : i.SettlesRule base (next t) a) : i.SettlesRule base (.ask n next) a := by
  obtain ⟨k, u, hu⟩ := hn
  obtain ⟨k', v, hv⟩ := hnext
  refine ⟨max k k', u.union v, Rule.eval?_ask_eq_some.2 ⟨t, u, v, ?_, ?_, rfl⟩⟩
  · exact settle?_mono (Nat.le_max_left k k') hu
  · exact Rule.eval?_mono (fun _ _ => settle?_mono (Nat.le_max_right k k')) hv

theorem SettlesRule.askRecord {q : QName} {next : Option Record → Rule α} {a : α}
    (hnext : i.SettlesRule base (next (i.recordOver base q)) a) :
    i.SettlesRule base (.askRecord q next) a := by
  obtain ⟨k, v, hv⟩ := hnext
  exact ⟨k, v.addRecord q, Rule.eval?_askRecord_eq_some.2 ⟨v, hv, rfl⟩⟩

theorem SettlesRule.read {f : FileId} {next : Rule α} {a : α}
    (hnext : i.SettlesRule base next a) : i.SettlesRule base (.read f next) a := by
  obtain ⟨k, v, hv⟩ := hnext
  exact ⟨k, v.addFile f, Rule.eval?_read_eq_some.2 ⟨v, hv, rfl⟩⟩

theorem settles_outside (h : i.env.program.contains n = false) : i.Settles base n none :=
  ⟨1, {}, by simp [settle?, settleStep, h]⟩

theorem settles_served (h : i.env.program.contains n = true) (hx : base.served? n = some x) :
    i.Settles base n (some x.ty) :=
  ⟨1, {}, by simp [settle?, settleStep, h, hx]⟩

theorem settles_rule (h : i.env.program.contains n = true) (hx : base.served? n = none)
    (hrule : i.SettlesRule base (i.env.rule n) t) : i.Settles base n t := by
  obtain ⟨k, u, hu⟩ := hrule
  exact ⟨k + 1, u, by simpa [settle?, settleStep, h, hx] using hu⟩

/-! ## Caches that have grown -/

/-- A cache that serves all that another one serves, and else only what settles over that one. -/
structure Grown (i : Inference) (base c : Cache) : Prop where
  timed : c.WellTimed
  generation : i.generation = c.generation
  grows : ∀ {n x}, base.served? n = some x → c.served? n = some x
  settled : ∀ {n x}, c.served? n = some x → i.env.program.contains n = true →
    i.Settles base n (some x.ty)
  records : ∀ q, i.recordOver c q = i.recordOver base q

namespace Grown

theorem refl (hc : c.WellTimed) (hgeneration : i.generation = c.generation) : i.Grown c c :=
  ⟨hc, hgeneration, fun hx => hx, fun hx hn => settles_served hn hx, fun _ => rfl⟩

theorem served?_eq_none (h : i.Grown base c) (hx : c.served? n = none) : base.served? n = none := by
  refine Option.eq_none_iff_forall_ne_some.2 fun y hy => ?_
  cases hx.symm.trans (h.grows hy)

/-- Between edits, a cache that serves the same is grown as well. -/
theorem of_served (h : i.Grown base c) {c' : Cache} (htimed : c'.WellTimed)
    (hframe : c.Frame i.env.found? c') (hserved : ∀ n, c'.served? n = c.served? n) :
    i.Grown base c' where
  timed := htimed
  generation := h.generation.trans hframe.generation.symm
  grows hx := (hserved _).trans (h.grows hx)
  settled hx := h.settled ((hserved _).symm.trans hx)
  records q := (hframe.records q).trans (h.records q)

theorem fetch (h : i.Grown base c) (n : NodeId) : i.Grown base (c.fetch n).2 :=
  h.of_served (h.timed.fetch n) (.fetch c n) (Cache.served?_fetch c n)

theorem lookup (h : i.Grown base c) (q : QName) : i.Grown base (i.lookup q c).2 :=
  h.of_served (i.wellTimed_lookup q h.timed)
    ((i.frame_lookup q c).mono Env.found?_of_ownRecord?) (i.served?_lookup q c)

/-- Keeping a settled result, if that makes no sweep. -/
theorem keep (h : i.Grown base c) (hn : base.served? n = none) (ht : i.Settles base n t)
    {files : List FileId}
    (hsweeps : (c.keep n t i.generation files).counters.sweeps = c.counters.sweeps) :
    i.Grown base (c.keep n t i.generation files) := by
  cases t with
  | none => exact h
  | some ty =>
    have hframe : c.Frame i.env.found? (c.insert n ty i.generation files).2 := .insert ..
    refine ⟨h.timed.insert n ty files (Nat.le_of_eq h.generation),
      h.generation.trans hframe.generation.symm, ?_, ?_,
      fun q => (hframe.records q).trans (h.records q)⟩
    · intro m x hx
      have hm : m ≠ n := by
        rintro rfl
        simp [hn] at hx
      exact (Cache.served?_keep_of_ne hm hsweeps).trans (h.grows hx)
    · intro m x hx hm
      obtain ⟨rfl, rfl, -, -⟩ | hx := Cache.served?_of_insert hx
      · exact ht
      · exact h.settled hx hm

/-- Keeping a result with unknown parts changes nothing. -/
theorem keep_unknown (h : i.Grown base c) (ht : ∀ ty, t = some ty → ty.hasUnknown = true)
    (n : NodeId) (files : List FileId) :
    i.Grown base (c.keep n t i.generation files) ∧
      ∀ m, (c.keep n t i.generation files).served? m = c.served? m := by
  cases t with
  | none => exact ⟨h, fun _ => rfl⟩
  | some ty =>
    have hserved := Cache.served?_insert_of_hasUnknown (ht ty rfl) c n i.generation files
    exact ⟨h.of_served (h.timed.insert n ty files (Nat.le_of_eq h.generation)) (.insert ..)
      hserved, hserved⟩

end Grown

/-! ## A quiet run -/

/-- What a quiet question comes to, if the cache does not answer it. -/
theorem quiet_body (hn : i.env.program.contains n = true) (ha : n ∉ e.active)
    (hx : e.cache.served? n = none) (hquiet : e.Quiet (i.inferWithin (depth + 1) n e).2) :
    ((e.consulted n).enter n).Quiet (i.body depth n e).2 ∧
      (i.kept depth n e).counters.sweeps = (i.body depth n e).2.cache.counters.sweeps := by
  obtain ⟨hsweeps, hkept⟩ := unswept_body hn ha hx hquiet.sweeps
  exact ⟨⟨(cuts_inferWithin_miss hn ha hx).symm.trans hquiet.cuts, hsweeps⟩, hkept⟩

theorem performWith_grown
    (hinfer : ∀ n (e : Engine), i.Grown base e.cache → e.Quiet (i.inferWithin depth n e).2 →
      i.Grown base (i.inferWithin depth n e).2.cache ∧
        i.Settles base n (i.inferWithin depth n e).1)
    (rule : Rule α) (e : Engine) (h : i.Grown base e.cache)
    (hquiet : e.Quiet (i.performWith (i.inferWithin depth) rule e).2) :
    i.Grown base (i.performWith (i.inferWithin depth) rule e).2.cache ∧
      i.SettlesRule base rule (i.performWith (i.inferWithin depth) rule e).1 := by
  induction rule generalizing e with
  | done a => exact ⟨h, .done a⟩
  | ask node next ih =>
    rw [performWith_ask] at hquiet ⊢
    obtain ⟨hfirst, hrest⟩ :=
      hquiet.split (i.frame_inferWithin depth node e) (i.frame_performWith depth _ _)
    obtain ⟨h, hnode⟩ := hinfer node e h hfirst
    obtain ⟨h, hnext⟩ := ih _ _ h hrest
    exact ⟨h, .ask hnode hnext⟩
  | askRecord name next ih =>
    rw [performWith_askRecord] at hquiet ⊢
    obtain ⟨-, hrest⟩ := hquiet.split (i.frame_ask name e) (i.frame_performWith depth _ _)
    have hrecord : (i.ask name e).1 = i.recordOver base name :=
      (i.lookup_fst name e.cache).trans (h.records name)
    obtain ⟨h, hnext⟩ := ih _ _ (h.lookup name) hrest
    exact ⟨h, .askRecord (hrecord ▸ hnext)⟩
  | read file next ih =>
    rw [performWith_read] at hquiet ⊢
    obtain ⟨-, hrest⟩ := hquiet.split (.note e file) (i.frame_performWith depth _ _)
    obtain ⟨h, hnext⟩ := ih _ (by simpa using h) hrest
    exact ⟨h, .read hnext⟩

/-- A quiet run leaves what settles, and its answer settles. -/
theorem inferWithin_grown (depth : Nat) (n : NodeId) (e : Engine) (h : i.Grown base e.cache)
    (hquiet : e.Quiet (i.inferWithin depth n e).2) :
    i.Grown base (i.inferWithin depth n e).2.cache ∧
      i.Settles base n (i.inferWithin depth n e).1 := by
  induction depth, n, e, hquiet.cuts using i.uncut_induction with
  | outside depth n e hcuts hn =>
    rw [inferWithin_outside hn]
    exact ⟨h, settles_outside hn⟩
  | hit depth n e hcuts x hn ha hx =>
    rw [inferWithin_hit hn ha hx]
    exact ⟨by simpa using h.fetch n, h.settled hx hn⟩
  | miss depth n e hcuts hn ha hx _ ih =>
    obtain ⟨hbody, hkept⟩ := quiet_body hn ha hx hquiet
    obtain ⟨hgrown, hrule⟩ : i.Grown base (i.body depth n e).2.cache ∧
        i.SettlesRule base (i.env.rule n) (i.body depth n e).1 :=
      performWith_grown (fun m e h hquiet => ih m e hquiet.cuts h hquiet) _ _ (h.fetch n) hbody
    have hbase := h.served?_eq_none hx
    have hsettles := settles_rule hn hbase hrule
    rw [inferWithin_miss hn ha hx]
    exact ⟨by simpa [kept] using hgrown.keep hbase hsettles hkept, hsettles⟩

/-- A quiet run forgets nothing. -/
theorem grows_performWith (h : i.Grown base e.cache) (rule : Rule α)
    (hquiet : e.Quiet (i.performWith (i.inferWithin depth) rule e).2)
    (hx : e.cache.served? m = some x) :
    (i.performWith (i.inferWithin depth) rule e).2.cache.served? m = some x :=
  (performWith_grown (inferWithin_grown depth) rule e
    (.refl h.timed h.generation) hquiet).1.grows hx

/-! ## The run after it -/

/-- A quiet run, and a second engine whose cache knows what the run leaves. The nodes under way are
apart, since their results are still to come. -/
structure Primed (i : Inference) (base : Cache) (run : Engine → α × Engine) (cold warm : Engine) :
    Prop where
  grown_cold : i.Grown base cold.cache
  grown_warm : i.Grown base warm.cache
  active : warm.active = cold.active
  quiet : cold.Quiet (run cold).2
  left : ∀ {m x}, m ∉ cold.active → (run cold).2.cache.served? m = some x →
    warm.cache.served? m = some x

/-- The second engine comes to the same result, and to nothing that it did not know. -/
structure Echoes (i : Inference) (base : Cache) (run : Engine → α × Engine) (cold warm : Engine) :
    Prop where
  result : (run warm).1 = (run cold).1
  grown : i.Grown base (run warm).2.cache
  served : ∀ m, (run warm).2.cache.served? m = warm.cache.served? m

theorem performWith_echoes
    (hinfer : ∀ n (cold warm : Engine), i.Primed base (i.inferWithin depth n) cold warm →
      i.Echoes base (i.inferWithin depth n) cold warm)
    (rule : Rule α) (cold warm : Engine)
    (h : i.Primed base (i.performWith (i.inferWithin depth) rule) cold warm) :
    i.Echoes base (i.performWith (i.inferWithin depth) rule) cold warm := by
  obtain ⟨hcold, hwarm, hactive, hquiet, hleft⟩ := h
  induction rule generalizing cold warm with
  | done a => exact ⟨rfl, hwarm, fun _ => rfl⟩
  | ask node next ih =>
    simp only [performWith_ask] at hquiet hleft
    have hframe := i.frame_inferWithin depth node cold
    obtain ⟨hfirst, hrest⟩ :=
      hquiet.split hframe (i.frame_performWith depth _ _)
    have hcold' := (inferWithin_grown depth node cold hcold hfirst).1
    obtain ⟨hresult, hwarm', hserved⟩ := hinfer node cold warm ⟨hcold, hwarm, hactive, hfirst,
      fun hm hx => hleft hm (grows_performWith hcold' _ hrest hx)⟩
    obtain ⟨hresult', hwarm'', hserved'⟩ := ih _ _ _ hcold' hwarm'
      (by rw [(i.frame_inferWithin depth node warm).active, hframe.active, hactive]) hrest
      fun {m x} hm hx => (hserved m).trans (hleft (hframe.active ▸ hm) hx)
    constructor <;> rw [performWith_ask, hresult]
    · exact hresult'
    · exact hwarm''
    · exact fun m => (hserved' m).trans (hserved m)
  | askRecord name next ih =>
    have hrecord : (i.ask name warm).1 = (i.ask name cold).1 :=
      ((i.lookup_fst name warm.cache).trans (hwarm.records name)).trans
        ((i.lookup_fst name cold.cache).trans (hcold.records name)).symm
    have hserved : ∀ m, (i.ask name warm).2.cache.served? m = warm.cache.served? m :=
      i.served?_lookup name warm.cache
    simp only [performWith_askRecord] at hquiet hleft
    obtain ⟨-, hrest⟩ := hquiet.split (i.frame_ask name cold)
      (i.frame_performWith depth _ _)
    obtain ⟨hresult, hwarm', hserved'⟩ := ih _ (i.ask name cold).2 (i.ask name warm).2
      (hcold.lookup name) (hwarm.lookup name) hactive hrest
      fun {m x} hm hx => (hserved m).trans (hleft hm hx)
    constructor <;> rw [performWith_askRecord, hrecord]
    · exact hresult
    · exact hwarm'
    · exact fun m => (hserved' m).trans (hserved m)
  | read file next ih =>
    simp only [performWith_read] at hquiet hleft
    obtain ⟨-, hrest⟩ := hquiet.split (.note cold file)
      (i.frame_performWith depth _ _)
    obtain ⟨hresult, hwarm', hserved⟩ := ih (cold.note file) (warm.note file) (by simpa using hcold)
      (by simpa using hwarm) (by simpa using hactive) hrest
      fun hm hx => by simpa using hleft (by simpa using hm) hx
    exact ⟨hresult, hwarm', by simpa using hserved⟩

/-- A known result is kept, so a node that is not served after its rule was run has no known
type. -/
theorem hasUnknown_of_unserved (h : i.Grown base (i.body depth n e).2.cache)
    (hx : (i.kept depth n e).served? n = none) {ty : Ty} (hty : (i.body depth n e).1 = some ty) :
    ty.hasUnknown = true := by
  by_contra hknown
  have hserved := h.timed.served?_keep (.refl _) (Bool.eq_false_iff.2 hknown) n
    (i.body depth n e).2.files
  rw [← hty, ← h.generation] at hserved
  cases hx.symm.trans hserved

theorem inferWithin_echoes (depth : Nat) (n : NodeId) (cold warm : Engine)
    (h : i.Primed base (i.inferWithin depth n) cold warm) :
    i.Echoes base (i.inferWithin depth n) cold warm := by
  -- the induction is on the second question, which finds what the first one has left
  induction depth, n, warm using i.inferWithin_induction generalizing cold with
  | outside depth n warm hn =>
    constructor <;> rw [inferWithin_outside hn]
    · rw [inferWithin_outside hn]
    · exact h.grown_warm
    · exact fun _ => rfl
  | cycle depth n warm hn ha =>
    exact absurd (h.active ▸ ha) (depth_pos_of_uncut hn h.quiet.cuts).1
  | tooDeep n warm hn ha =>
    obtain ⟨-, depth, hdepth⟩ := depth_pos_of_uncut hn h.quiet.cuts
    cases hdepth
  | hit depth n warm x hn ha hx =>
    -- the type was computed by the first run or given to it: both ways it settles
    have hanswer := (inferWithin_grown (depth + 1) n cold h.grown_cold h.quiet).2
    constructor <;> rw [inferWithin_hit hn ha hx]
    · exact (h.grown_warm.settled hx hn).unique hanswer
    · simpa using h.grown_warm.fetch n
    · simp
  | miss depth n warm hn ha hx ih =>
    obtain ⟨hcold, hwarm, hactive, hquiet, hleft⟩ := h
    have ha' : n ∉ cold.active := hactive ▸ ha
    have hx' : cold.cache.served? n = none := by
      refine Option.eq_none_iff_forall_ne_some.2 fun y hy => ?_
      rw [inferWithin_hit hn ha' hy] at hleft
      cases hx.symm.trans (hleft ha' (by simpa using hy))
    obtain ⟨hbody, hkept⟩ := quiet_body hn ha' hx' hquiet
    rw [cache_inferWithin_miss hn ha' hx'] at hleft
    have hechoes : i.Echoes base (i.performWith (i.inferWithin depth) (i.env.rule n))
        ((cold.consulted n).enter n) ((warm.consulted n).enter n) := by
      refine performWith_echoes (fun m cold warm h => ih m warm cold h) _ _ _
        ⟨hcold.fetch n, hwarm.fetch n, by simpa using hactive, hbody, fun {m x} hm hx => ?_⟩
      obtain ⟨hmn, hm⟩ : m ≠ n ∧ m ∉ cold.active := by simpa using hm
      have hm := hleft hm ((Cache.served?_keep_of_ne hmn hkept).trans hx)
      simpa using hm
    -- the first run has left no type of the node, so its result is not known
    have hgrown : i.Grown base (i.body depth n cold).2.cache :=
      (performWith_grown (inferWithin_grown depth) _ _
        (hcold.fetch n) hbody).1
    have hunserved : (i.kept depth n cold).served? n = none := by
      refine Option.eq_none_iff_forall_ne_some.2 fun y hy => ?_
      cases hx.symm.trans (hleft ha' hy)
    have hresult : (i.body depth n warm).1 = (i.body depth n cold).1 := hechoes.result
    have hwarm' : i.Grown base (i.kept depth n warm) ∧
        ∀ m, (i.kept depth n warm).served? m = (i.body depth n warm).2.cache.served? m :=
      hechoes.grown.keep_unknown
        (fun _ hty => hasUnknown_of_unserved hgrown hunserved (hresult ▸ hty)) n _
    constructor <;> rw [inferWithin_miss hn ha hx]
    · rw [inferWithin_miss hn ha' hx']
      exact hresult
    · simpa using hwarm'.1
    · intro m
      simpa using (hwarm'.2 m).trans (hechoes.served m)

/-- A node whose answer has no unknown parts is served after the answer, with that answer. -/
theorem serves_of_known {ty : Ty} (hc : e.cache.WellTimed)
    (hgeneration : i.generation = e.cache.generation)
    (hty : (i.inferWithin depth n e).1 = some ty) (hknown : ty.hasUnknown = false) :
    i.env.program.contains n = true ∧ (∃ depth', depth = depth' + 1) ∧
      ∃ x, (i.inferWithin depth n e).2.cache.served? n = some x ∧ x.ty = ty := by
  have hcut : ∀ {e'}, i.inferWithin depth n e ≠ (some .unknown, e') := by
    intro e' h
    rw [h] at hty
    obtain rfl := Option.some.inj hty
    exact nomatch hknown
  cases hn : i.env.program.contains n with
  | false =>
    rw [inferWithin_outside hn] at hty
    exact nomatch hty
  | true =>
    have ha : n ∉ e.active := fun ha => hcut (inferWithin_active hn ha)
    cases depth with
    | zero => exact absurd (inferWithin_zero hn ha) hcut
    | succ depth =>
      refine ⟨rfl, ⟨depth, rfl⟩, ?_⟩
      cases hx : e.cache.served? n with
      | some x =>
        rw [inferWithin_hit hn ha hx] at hty ⊢
        exact ⟨x, by simpa using hx, Option.some.inj hty⟩
      | none =>
        rw [inferWithin_miss hn ha hx] at hty ⊢
        have hu : e.cache.Unedited (i.body depth n e).2.cache :=
          (Cache.Unedited.fetch e.cache n).trans (i.frame_body depth n e).cache.toUnedited
        have hserved := hc.served?_keep hu hknown n (i.body depth n e).2.files
        rw [← hty, ← hgeneration] at hserved
        exact ⟨_, by simpa [kept] using hserved, rfl⟩

end Inference

end MoveTyping
