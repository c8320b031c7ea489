import MoveTyping.Proofs.Infer.Pack
import MoveTyping.Proofs.Tree.Nesting

/-!
# Destructuring

A name in a tuple pattern has the component of the bound type at its place. The place is found from
the inside: the way up leads from the name through the patterns around it to the `let`, and the
places that were passed are then followed in the other direction through the type. Both ways agree
with the shape of the pattern, however deep and uneven it is, if each part of it is listed once.

## Main definitions

* `Tree.PartAt` — the part of a pattern at a path of places.
* `Ty.ComponentAt`, `Ty.Lacks` — the component of a type at a path, and that there is none.
* `Inference.letType` — the type that is bound by a `let`.

## Main results

* `Env.bindingSite?_of_partAt` — the way up from a name finds its path.
* `Inference.perform_bindingRule_destructures` — the type of a name in a pattern.
-/

namespace MoveTyping

/-! ## Components of a type -/

namespace Ty

variable {t u : Ty} {path : List Nat}

/-- The component of a type at a path through nested tuples. -/
inductive ComponentAt : Ty → List Nat → Ty → Prop
  | here (t : Ty) : ComponentAt t [] t
  | step {elems : List Ty} {i : Nat} {elem u : Ty} {path : List Nat} : elems[i]? = some elem →
      ComponentAt elem path u → ComponentAt (tuple elems) (i :: path) u

/-- Some step of the path meets a type that is no tuple or has too few elements. -/
def Lacks (t : Ty) (path : List Nat) : Prop :=
  ∃ before i after u, path = before ++ i :: after ∧ t.ComponentAt before u ∧
    ∀ elems, u = tuple elems → elems.length ≤ i

theorem componentAt_or_lacks (t : Ty) (path : List Nat) :
    (∃ u, t.ComponentAt path u) ∨ t.Lacks path := by
  induction path generalizing t with
  | nil => exact .inl ⟨t, .here t⟩
  | cons i path ih =>
    by_cases hstep : ∃ elems elem, t = tuple elems ∧ elems[i]? = some elem
    · obtain ⟨elems, elem, rfl, helem⟩ := hstep
      rcases ih elem with ⟨u, hu⟩ | ⟨before, j, after, u, rfl, hu, hshort⟩
      · exact .inl ⟨u, .step helem hu⟩
      · exact .inr ⟨i :: before, j, after, u, rfl, .step helem hu, hshort⟩
    · refine .inr ⟨[], i, path, t, rfl, .here t, fun elems ht => ?_⟩
      by_contra hlt
      exact hstep ⟨elems, elems[i], ht, List.getElem?_eq_getElem (by omega)⟩

theorem ComponentAt.foldl_component (h : t.ComponentAt path u) : path.foldl component t = u := by
  induction h with
  | here t => rfl
  | step helem _ ih => rw [List.foldl_cons, component, helem, Option.getD_some, ih]

theorem foldl_component_unknown (path : List Nat) : path.foldl component unknown = unknown := by
  induction path with
  | nil => rfl
  | cons i path ih => exact ih

theorem Lacks.foldl_component (h : t.Lacks path) : path.foldl component t = unknown := by
  obtain ⟨before, i, after, u, rfl, hu, hshort⟩ := h
  have hnone : u.component i = unknown := by
    cases u with
    | tuple elems => simp [component, hshort elems rfl]
    | _ => rfl
  rw [List.foldl_append, hu.foldl_component, List.foldl_cons, hnone, foldl_component_unknown]

theorem foldl_component_eq_unknown_iff :
    path.foldl component t = unknown ↔ t.Lacks path ∨ t.ComponentAt path unknown := by
  constructor
  · intro h
    rcases t.componentAt_or_lacks path with ⟨u, hu⟩ | hlacks
    · rw [hu.foldl_component] at h
      exact .inr (h ▸ hu)
    · exact .inl hlacks
  · rintro (hlacks | hu)
    · exact hlacks.foldl_component
    · exact hu.foldl_component

end Ty

/-! ## Parts of a pattern -/

/-- In a list an element that occurs once is found where it is. -/
theorem idxOf?_eq_some_of_count {l : List NodeId} {c : NodeId} {k : Nat} (hk : l[k]? = some c)
    (honce : l.count c ≤ 1) : l.idxOf? c = some k := by
  obtain ⟨hlt, hc⟩ := List.getElem?_eq_some_iff.1 hk
  refine List.idxOf?_eq_some_iff.2 ⟨hlt, hc, fun j hj hjc => ?_⟩
  have hbefore : 0 < (l.take k).count c :=
    List.count_pos_iff.2 (hjc ▸ List.mem_take_iff_getElem.2 ⟨j, by omega, rfl⟩)
  have hafter : 0 < (l.drop k).count c :=
    List.count_pos_iff.2 (hc ▸ List.mem_drop_iff_getElem.2 ⟨0, by omega, by simp⟩)
  have hsum : l.count c = (l.take k).count c + (l.drop k).count c := by
    rw [← List.count_append, List.take_append_drop]
  omega

namespace Tree

variable {t : Tree} {pattern part name stmt c p q : NodeId} {path : List Nat} {elems : Slice}

/-- The part of a pattern at a path through nested tuple patterns. -/
inductive PartAt (t : Tree) : NodeId → List Nat → NodeId → Prop
  | here (part : NodeId) : PartAt t part [] part
  | step {pattern part name : NodeId} {elems : Slice} {i : Nat} {path : List Nat} :
      t.kind? pattern = some (.bindTuple elems) → (t.list elems)[i]? = some part →
      PartAt t part path name → PartAt t pattern (i :: path) name

/-- How often a node occurs as a child. -/
def listings (t : Tree) (c : NodeId) : Nat := (t.ids.flatMap t.children).count c

theorem count_children_le_listings (hp : p ∈ t.ids) : (t.children p).count c ≤ t.listings c := by
  obtain ⟨before, after, hsplit⟩ := List.append_of_mem hp
  simp only [listings, hsplit, List.flatMap_append, List.flatMap_cons, List.count_append]
  omega

/-- A node that is listed once is listed by one node only. -/
theorem eq_of_listings (honce : t.listings c ≤ 1) (hp : c ∈ t.children p) (hq : c ∈ t.children q) :
    p = q := by
  by_contra hne
  obtain ⟨before, after, hsplit⟩ := List.append_of_mem (mem_ids_of_mem_children hp)
  have hmem : q ∈ before ∨ q ∈ after := by
    have := hsplit ▸ mem_ids_of_mem_children hq
    simpa [Ne.symm hne] using this
  have hcount : 0 < (t.children p).count c := List.count_pos_iff.2 hp
  have hother : 0 < (before.flatMap t.children).count c + (after.flatMap t.children).count c := by
    rcases hmem with hmem | hmem
    · have := List.count_pos_iff.2 (List.mem_flatMap.2 ⟨q, hmem, hq⟩)
      omega
    · have := List.count_pos_iff.2 (List.mem_flatMap.2 ⟨q, hmem, hq⟩)
      omega
  simp only [listings, hsplit, List.flatMap_append, List.flatMap_cons, List.count_append] at honce
  omega

/-- The parent of a node that is listed once is the node that lists it. -/
theorem BottomUp.parent?_of_listings (ht : t.BottomUp) (honce : t.listings c ≤ 1)
    (hp : c ∈ t.children p) : t.parent? c = some p := by
  refine ht.parent?_eq_some_iff_last.2 ⟨hp, fun q hq => ?_⟩
  exact Nat.le_of_eq (congrArg NodeId.index (eq_of_listings honce hq hp))

theorem children_of_bindTuple (hk : t.kind? pattern = some (.bindTuple elems)) :
    t.children pattern = t.list elems := by
  simp [Arena.children, hk, NodeKind.children]

end Tree

/-! ## The way up -/

namespace Env

variable {env : Env} {t : Tree} {pattern part name stmt : NodeId} {path inner : List Nat}
  {elems : Slice} {ty init : Option NodeId} {k : Nat}

/-- From an element of a tuple pattern the way leads to the pattern, past the place. -/
theorem ascend_of_bindTuple (htree : env.program.tree? t.file = some t) (ht : t.BottomUp)
    (hk : t.kind? pattern = some (.bindTuple elems)) (hpart : (t.list elems)[k]? = some part)
    (honce : t.listings part ≤ 1) : env.ascend (part, inner) = .inr (pattern, k :: inner) := by
  have hchildren := Tree.children_of_bindTuple hk
  have hmem : part ∈ t.children pattern := hchildren ▸ List.mem_of_getElem? hpart
  have hpattern : pattern ∈ t.ids := Arena.mem_ids_of_kind? hk
  have hfile : part.file = t.file := (Arena.mem_ids.1 (ht.mem_ids hmem)).1
  have hfile' : pattern.file = t.file := (Arena.mem_ids.1 hpattern).1
  have hparent : env.program.parent? part = some pattern := by
    simp [Program.parent?, hfile, htree, ht.parent?_of_listings honce hmem]
  have hkind : env.program.kind? pattern = some (.bindTuple elems) := by
    simp [Program.kind?, hfile', htree, hk]
  have hplace : (env.program.list pattern.file elems).idxOf? part = some k := by
    simp only [Program.list, hfile', htree, Option.map_some, Option.getD_some]
    refine idxOf?_eq_some_of_count hpart (Nat.le_trans ?_ honce)
    exact hchildren ▸ Tree.count_children_le_listings hpattern
  simp only [ascend, hparent, hkind, hplace]

/-- From the pattern of a `let` the way ends at the `let`. -/
theorem ascend_of_letStmt (htree : env.program.tree? t.file = some t) (ht : t.BottomUp)
    (hk : t.kind? stmt = some (.letStmt pattern ty init)) (honce : t.listings pattern ≤ 1) :
    env.ascend (pattern, inner) = .inl (some ⟨inner, ty, init⟩) := by
  have hmem : pattern ∈ t.children stmt := by simp [Arena.children, hk, NodeKind.children]
  have hfile : pattern.file = t.file := (Arena.mem_ids.1 (ht.mem_ids hmem)).1
  have hfile' : stmt.file = t.file := Tree.file_of_kind? hk
  have hparent : env.program.parent? pattern = some stmt := by
    simp [Program.parent?, hfile, htree, ht.parent?_of_listings honce hmem]
  have hkind : env.program.kind? stmt = some (.letStmt pattern ty init) := by
    simp [Program.kind?, hfile', htree, hk]
  simp only [ascend, hparent, hkind, if_pos]

/-- The way up from a part of a pattern comes to the pattern and has passed the path to the part. -/
theorem ascend_reaches (htree : env.program.tree? t.file = some t) (ht : t.BottomUp)
    (hpart : t.PartAt pattern path name)
    (honce : ∀ path part, t.PartAt pattern path part → t.listings part ≤ 1) :
    env.ascend.Reaches (name, []) (pattern, path) := by
  induction hpart with
  | here => exact .refl _ _
  | @step pattern part name elems i path hk hpart _ ih =>
    have hinner := ih fun path part h => honce (i :: path) part (.step hk hpart h)
    have hround : env.ascend (part, path) = .inr (pattern, i :: path) :=
      ascend_of_bindTuple htree ht hk hpart (honce [i] part (.step hk hpart (.here part)))
    exact hinner.trans (.next hround (.refl _ _))

/-- The site of a name in the pattern of a `let` has the path to the name. -/
theorem bindingSite?_of_partAt (htree : env.program.tree? t.file = some t) (ht : t.BottomUp)
    (hlet : t.kind? stmt = some (.letStmt pattern ty init)) (hpart : t.PartAt pattern path name)
    (honce : ∀ path part, t.PartAt pattern path part → t.listings part ≤ 1)
    (hfile : name.file = t.file) : env.bindingSite? name = some ⟨path, ty, init⟩ := by
  have hreaches : env.ascend.Reaches (name, []) (pattern, path) :=
    ascend_reaches htree ht hpart honce
  have hstop : env.ascend.Ends (pattern, path) (some ⟨path, ty, init⟩) :=
    .stop (ascend_of_letStmt htree ht hlet (honce [] pattern (.here pattern)))
  have hsite : env.ascend.Ends (name, []) (env.bindingSite? name) := by
    rw [bindingSite?, hfile, htree]
    exact ascend_ends_within ht (t.size + 1) name [] (hfile ▸ htree) (by omega)
  exact hsite.unique (hreaches.ends hstop)

end Env

/-! ## Types of names -/

namespace Inference

variable {i : Inference} {e : Engine} {t : Tree} {stmt pattern name : NodeId}
  {ty init : Option NodeId} {path : List Nat} {x : String}

/-- The type that a `let` binds: its annotation, or else what the engine gives for its
initialiser. -/
def letType (i : Inference) (e : Engine) : (ty init : Option NodeId) → Ty
  | some ty, _ => (i.env.denote ty).1
  | none, some init => (i.infer init e).1.getD .unknown
  | none, none => .unknown

theorem perform_annotatedRule (ty init : Option NodeId) :
    (i.perform (i.env.annotatedRule ty init) e).1 = i.letType e ty init := by
  cases ty with
  | some ty => exact perform_reading (i.env.denote ty)
  | none =>
    cases init with
    | some init =>
      rw [letType, infer_eq_inferWithin, perform_eq]
      rfl
    | none => rfl

theorem perform_bindingRule {site : BindingSite} (h : i.env.bindingSite? name = some site) :
    (i.perform (i.env.bindingRule name) e).1 =
      site.places.foldl Ty.component (i.letType e site.ty site.init) := by
  simp only [Env.bindingRule, h]
  rw [perform_bind, ← perform_annotatedRule]
  rfl

/-- In a tree that is built bottom up, let a `let` have a pattern of which each part is listed once,
nested in any way. Then every name in the pattern has the component of the bound type at the path of
the name. It is unknown exactly when some step of the path meets a type that is no tuple or has too
few elements, or when the component is unknown itself. -/
theorem perform_bindingRule_destructures (htree : i.env.program.tree? t.file = some t)
    (ht : t.BottomUp) (hlet : t.kind? stmt = some (.letStmt pattern ty init))
    (honce : ∀ path part, t.PartAt pattern path part → t.listings part ≤ 1)
    (hpart : t.PartAt pattern path name) (hname : t.kind? name = some (.bindName x)) :
    let bound := (i.perform (i.env.bindingRule name) e).1
    (∀ u, (i.letType e ty init).ComponentAt path u → bound = u) ∧
      (bound = .unknown ↔
        (i.letType e ty init).Lacks path ∨ (i.letType e ty init).ComponentAt path .unknown) := by
  intro bound
  have hsite := Env.bindingSite?_of_partAt htree ht hlet hpart honce (Tree.file_of_kind? hname)
  have hbound : bound = path.foldl Ty.component (i.letType e ty init) :=
    perform_bindingRule hsite
  rw [hbound]
  exact ⟨fun u hu => hu.foldl_component, Ty.foldl_component_eq_unknown_iff⟩

/-- A pattern that is nested deeper than the annotated type:

    let (a, (b, (c, d)), f): (u8, (bool, u16), u64);
-/
def unevenLet : Tree := Build.tree 0 do
  let simple (name : String) : Build NodeId := Build.typePath (.simple name) []
  let bind (name : String) : Build NodeId := Build.node (.bindName name)
  let bindTuple (elems : List NodeId) : Build NodeId := do
    Build.node (.bindTuple (← Build.slice elems))
  let pair ← Build.typeTuple [← simple "bool", ← simple "u16"]
  let ty ← Build.typeTuple [← simple "u8", pair, ← simple "u64"]
  let inner ← bindTuple [← bind "b", ← bindTuple [← bind "c", ← bind "d"]]
  let pattern ← bindTuple [← bind "a", inner, ← bind "f"]
  Build.node (.letStmt pattern ty none)

/-- The name `b` has its component, and the way to `d` meets the type `u16`. -/
theorem perform_bindingRule_destructures_uneven :
    let i : Inference := ⟨.ofProgram (Program.empty.insert unevenLet) .empty, 1, .ofMax 8⟩
    let e : Engine := .ofCache (.ofSettings {})
    (i.perform (i.env.bindingRule ⟨0, 6⟩) e).1 = .prim .bool ∧
      (i.perform (i.env.bindingRule ⟨0, 8⟩) e).1 = .unknown := by
  intro i e
  have htree : i.env.program.tree? 0 = some unevenLet := by
    simp [i, Env.ofProgram, Program.tree?_insert, show unevenLet.file = 0 from rfl]
  have hnested : unevenLet.Nested := by decide +kernel
  have hlet : unevenLet.kind? ⟨0, 14⟩ = some (.letStmt ⟨0, 13⟩ (some ⟨0, 5⟩) none) := by
    decide +kernel
  have hpattern : unevenLet.kind? ⟨0, 13⟩ = some (.bindTuple ⟨9, 3⟩) := by decide +kernel
  have hinner : unevenLet.kind? ⟨0, 10⟩ = some (.bindTuple ⟨7, 2⟩) := by decide +kernel
  have hinmost : unevenLet.kind? ⟨0, 9⟩ = some (.bindTuple ⟨5, 2⟩) := by decide +kernel
  have honce : ∀ path part, unevenLet.PartAt ⟨0, 13⟩ path part → unevenLet.listings part ≤ 1 :=
    fun _ part _ => List.nodup_iff_count_le_one.1 hnested.unshared part
  have htype : i.letType e (some ⟨0, 5⟩) none =
      .tuple [.prim .u8, .tuple [.prim .bool, .prim .u16], .prim .u64] := by decide +kernel
  have hb : unevenLet.PartAt ⟨0, 13⟩ [1, 0] ⟨0, 6⟩ :=
    .step hpattern (by decide +kernel) (.step hinner (by decide +kernel) (.here _))
  have hd : unevenLet.PartAt ⟨0, 13⟩ [1, 1, 1] ⟨0, 8⟩ :=
    .step hpattern (by decide +kernel) (.step hinner (by decide +kernel)
      (.step hinmost (by decide +kernel) (.here _)))
  have hbound := perform_bindingRule_destructures (e := e) htree hnested.bottomUp hlet honce hb
    (x := "b") (by decide +kernel)
  have hunbound := perform_bindingRule_destructures (e := e) htree hnested.bottomUp hlet honce hd
    (x := "d") (by decide +kernel)
  rw [htype] at hbound hunbound
  refine ⟨hbound.1 _ (.step rfl (.step rfl (.here _))), hunbound.2.2 (.inl ?_)⟩
  exact ⟨[1, 1], 1, [], .prim .u16, rfl, .step rfl (.step rfl (.here _)), by simp⟩

end Inference

end MoveTyping
