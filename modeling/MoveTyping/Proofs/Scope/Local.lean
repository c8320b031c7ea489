import MoveTyping.Scope.Qualify
import MoveTyping.Proofs.Program

/-!
# Locality of scopes

What the resolution of a reference depends on when the tree of one file is replaced. Within a file
only the tree of that file is looked at; other files come in through the modules that are found by
name and the items that are found in them.

## Main definitions

* `Scope.Steady` — items of modules are found as before, unless they were found in that file.
-/

namespace MoveTyping

/-! ## Answers -/

/-- Answers that are both in a file and stand in a given relation, or the same answer outside. -/
def Kept (f : FileId) (R : NodeId → NodeId → Prop) (x x' : Option NodeId) : Prop :=
  (∃ d d', x = some d ∧ x' = some d' ∧ d.file = f ∧ d'.file = f ∧ R d d') ∨
    (x' = x ∧ ∀ d, x = some d → d.file ≠ f)

namespace Kept

variable {f : FileId} {R : NodeId → NodeId → Prop} {x x' y y' : Option NodeId}

theorem none : Kept f R none none := .inr ⟨rfl, fun _ hd => nomatch hd⟩

theorem some {d : NodeId} (hd : d.file ≠ f) : Kept f R (some d) (some d) :=
  .inr ⟨rfl, fun _ h => Option.some.inj h ▸ hd⟩

theorem or (h : Kept f R x x') (h' : Kept f R y y') : Kept f R (x.or y) (x'.or y') := by
  rcases h with ⟨d, d', rfl, rfl, hd⟩ | ⟨rfl, hout⟩
  · exact .inl ⟨d, d', rfl, rfl, hd⟩
  · cases x' with
    | some d => exact some (hout d rfl)
    | none => simpa using h'

theorem findSome? {α : Type} {g g' : α → Option NodeId} {l : List α}
    (h : ∀ a ∈ l, Kept f R (g a) (g' a)) : Kept f R (l.findSome? g) (l.findSome? g') := by
  induction l with
  | nil => exact none
  | cons a l ih =>
    have hl := ih fun b hb => h b (List.mem_cons_of_mem a hb)
    have hcons : ∀ k : α → Option NodeId, (a :: l).findSome? k = (k a).or (l.findSome? k) := by
      intro k
      cases hk : k a <;> simp [hk]
    rw [hcons, hcons]
    exact or (h a List.mem_cons_self) hl

end Kept

/-! ## References -/

namespace Scope

variable {s s' : Scope} {t : Tree} {f : FileId} {r d m child : NodeId} {name module : String}
  {space : Space} {address : Option String}

/-- The item of this name in the module that is found under a name. -/
def member? (s : Scope) (address : Option String) (module name : String) (space : Space) :
    Option NodeId :=
  (s.findModule? address module).bind (s.item? · name space)

theorem kind?_of_item? (h : s.item? m name space = some d) :
    ∃ kind, s.program.kind? d = some kind ∧ kind.declares name space = true := by
  have hd := List.find?_some h
  rwa [Option.any_eq_true] at hd

theorem file_of_local? {scope : NodeKind} (h : local? t scope child name space = some d) :
    d.file = t.file := by
  have hbinding : ∀ fuel pattern, bindingWithin? t name fuel pattern = some d →
      d.file = t.file := by
    intro fuel
    induction fuel with
    | zero => intro pattern h; cases h
    | succ fuel ih =>
      intro pattern h
      rw [bindingWithin?] at h
      split at h
      · next hk =>
        split at h <;> cases h
        exact Tree.file_of_kind? hk
      · obtain ⟨elem, -, h⟩ := List.exists_of_findSome?_eq_some h
        exact ih elem h
      · cases h
  have hdeclared : ∀ decls, declared? t decls name = some d → d.file = t.file := by
    intro decls h
    have hd := List.find?_some h
    cases hk : t.kind? d with
    | none => simp [hk] at hd
    | some kind => exact Tree.file_of_kind? hk
  unfold local? at h
  split at h
  · obtain ⟨stmt, -, h⟩ := List.exists_of_findSome?_eq_some h
    split at h
    · exact hbinding _ _ h
    · cases h
  · exact hdeclared _ h
  · exact hdeclared _ h
  · exact hdeclared _ h
  · cases h

theorem reference?_typePath {path : QName} {args : Slice}
    (h : s.program.kind? r = some (.typePath path args)) : s.reference? r = some (path, .type) := by
  simp [reference?, h]

/-- A module of this file, or one that is found by its name. -/
def Reaches (s : Scope) (g : FileId) (m : NodeId) : Prop :=
  m.file = g ∨ ∃ address module, s.findModule? address module = some m

theorem reaches_targetModule? {node : NodeId} (h : s.targetModule? t node address module = some m) :
    s.Reaches t.file m := by
  unfold targetModule? at h
  split at h
  · exact .inr ⟨_, _, h⟩
  · simp only [Option.bind_eq_bind, Option.bind_eq_some_iff] at h
    obtain ⟨enclosing, henclosing, h⟩ := h
    have hfile := Tree.file_of_enclosingModule? henclosing
    split at h
    · cases h
      exact .inl hfile
    · split at h
      · exact .inr ⟨_, _, h⟩
      · split at h
        · cases h
          exact .inl hfile
        · exact .inr ⟨_, _, h⟩

/-- A name that is not found in a scope of the file is that of an item of a module. -/
theorem lookUp?_cases {scopes : List NodeId} (h : s.lookUp? t name space child scopes = some d) :
    d.file = t.file ∨ ∃ m member, s.Reaches t.file m ∧ s.item? m member space = some d := by
  induction scopes generalizing child with
  | nil => cases h
  | cons scope outer ih =>
    rw [lookUp?] at h
    split at h
    · cases h
    · next hk =>
      split at h
      · rcases Option.or_eq_some_iff.1 h with h | ⟨-, h⟩
        · exact .inr ⟨_, _, .inl (Tree.file_of_kind? hk), h⟩
        · obtain ⟨i, -, h⟩ := List.exists_of_findSome?_eq_some h
          simp only [Option.bind_eq_bind, Option.bind_eq_some_iff] at h
          obtain ⟨member, -, target, htarget, h⟩ := h
          exact .inr ⟨target, member, .inr ⟨_, _, htarget⟩, h⟩
      · split at h
        · next hd =>
          cases h
          exact .inl (file_of_local? hd)
        · exact ih h

/-- A reference that is not resolved in a scope of its file denotes an item of a module. -/
theorem resolve?_cases (h : s.resolve? r = some d) :
    d.file = r.file ∨ ∃ path space m member, s.reference? r = some (path, space) ∧
      s.Reaches r.file m ∧ s.item? m member space = some d := by
  simp only [resolve?, Option.bind_eq_bind, Option.bind_eq_some_iff, Prod.exists] at h
  obtain ⟨path, space, href, h⟩ := h
  simp only [resolvePath?, Option.bind_eq_bind, Option.bind_eq_some_iff] at h
  obtain ⟨t, ht, h⟩ := h
  have hfile := Program.file_of_tree? ht
  split at h
  · rcases lookUp?_cases h with h | ⟨m, member, hm, h⟩
    · exact .inl (h.trans hfile)
    · exact .inr ⟨path, space, m, member, href, hfile ▸ hm, h⟩
  · simp only [Option.bind_eq_some_iff] at h
    obtain ⟨target, htarget, h⟩ := h
    exact .inr ⟨path, space, target, _, href, hfile ▸ reaches_targetModule? htarget, h⟩
  · cases h

/-! ## Edits that are not seen from outside -/

/-- Two declarations have the same full name. -/
def SameName (s s' : Scope) (d d' : NodeId) : Prop :=
  s'.program.fullName? d' = s.program.fullName? d

/-- Two scopes whose programs differ in one file. Seen from outside, the modules have the same items
and the same names. -/
structure Steady (f : FileId) (s s' : Scope) : Prop where
  aliases : s'.aliases = s.aliases
  differs : s.program.DiffersAt f s'.program
  closed : s.program.Closed
  member : ∀ address module name space,
    Kept f (s.SameName s') (s.member? address module name space)
      (s'.member? address module name space)
  identity : ∀ module, (s'.findModule? none module).bind s'.program.identity? =
    (s.findModule? none module).bind s.program.identity?

theorem item?_eq (hdiffers : s.program.DiffersAt f s'.program) (hclosed : s.program.Closed)
    (hm : m.file ≠ f) : s'.item? m name space = s.item? m name space := by
  rw [item?, hdiffers.items hm, item?, ← List.head?_filter, ← List.head?_filter]
  refine congrArg List.head? (List.filter_congr fun item hitem => ?_)
  rw [hdiffers.kind? (hclosed.item hitem ▸ hm)]

theorem kept_item? {R : NodeId → NodeId → Prop} (hdiffers : s.program.DiffersAt f s'.program)
    (hclosed : s.program.Closed) (hm : m.file ≠ f) :
    Kept f R (s.item? m name space) (s'.item? m name space) := by
  refine .inr ⟨item?_eq hdiffers hclosed hm, fun d hd => ?_⟩
  rw [hclosed.item (List.mem_of_find?_eq_some hd)]
  exact hm

namespace Steady

theorem item? (h : Steady f s s') (hm : m.file ≠ f) :
    Kept f (s.SameName s') (s.item? m name space) (s'.item? m name space) :=
  kept_item? h.differs h.closed hm

theorem imported? (h : Steady f s s') (t : Tree) (m : NodeId) (name : String) (space : Space) :
    Kept f (s.SameName s') (s.imported? t m name space) (s'.imported? t m name space) := by
  refine Kept.findSome? fun i _ => ?_
  cases i.member with
  | none => exact .none
  | some member => exact h.member (some i.address) i.module member space

theorem lookUp? (h : Steady f s s') (ht : t.file ≠ f) {scopes : List NodeId}
    (hscopes : ∀ m ∈ scopes, m.file = t.file) :
    Kept f (s.SameName s') (s.lookUp? t name space child scopes) (s'.lookUp? t name space child scopes) := by
  induction scopes generalizing child with
  | nil => exact .none
  | cons scope outer ih =>
    have hscope : scope.file ≠ f := hscopes scope List.mem_cons_self ▸ ht
    simp only [Scope.lookUp?]
    cases t.kind? scope with
    | none => exact .none
    | some kind =>
      simp only
      cases kind.isModule with
      | true => exact (h.item? hscope).or (h.imported? t scope name space)
      | false =>
        cases hlocal : local? t kind child name space with
        | some decl => exact .some (file_of_local? hlocal ▸ ht)
        | none => exact ih fun m hm => hscopes m (List.mem_cons_of_mem _ hm)

theorem simple? (h : Steady f s s') (ht : t.file ≠ f) (node : NodeId) :
    Kept f (s.SameName s') (s.simple? t node name space) (s'.simple? t node name space) :=
  h.lookUp? ht fun _ => Tree.file_of_mem_ancestors

theorem targetModule? (h : Steady f s s') (ht : t.file ≠ f) (node : NodeId) :
    Kept f (s.SameName s') ((s.targetModule? t node address module).bind (s.item? · name space))
      ((s'.targetModule? t node address module).bind (s'.item? · name space)) := by
  unfold Scope.targetModule?
  split
  · exact h.member address module name space
  · cases henclosing : t.enclosingModule? node with
    | none => exact .none
    | some enclosing =>
      have hfile : enclosing.file ≠ f := Tree.file_of_enclosingModule? henclosing ▸ ht
      have hown : Kept f (s.SameName s') (s.item? enclosing name space)
          (s'.item? enclosing name space) := h.item? hfile
      simp only [Option.bind_eq_bind, Option.bind_some, h.differs.identity? hfile]
      split
      · exact hown
      · split
        · next i _ => exact h.member (some i.address) i.module name space
        · split
          · exact hown
          · exact h.member none module name space

theorem reference? (h : Steady f s s') (hr : r.file ≠ f) : s'.reference? r = s.reference? r := by
  unfold Scope.reference?
  rw [h.differs.kind? hr, h.differs.parent? hr]
  cases hparent : s.program.parent? r with
  | none => rfl
  | some m => simp only [Option.any_some, h.differs.kind? (Program.file_of_parent? hparent ▸ hr)]

theorem resolve? (h : Steady f s s') (hr : r.file ≠ f) :
    Kept f (s.SameName s') (s.resolve? r) (s'.resolve? r) := by
  unfold Scope.resolve? Scope.resolvePath?
  rw [h.reference? hr, h.differs r.file hr]
  cases s.reference? r with
  | none => exact .none
  | some reference =>
    obtain ⟨path, space⟩ := reference
    cases ht : s.program.tree? r.file with
    | none => exact .none
    | some t =>
      have ht : t.file ≠ f := Program.file_of_tree? ht ▸ hr
      simp only [Option.bind_eq_bind, Option.bind_some]
      split
      · exact h.simple? ht r
      · exact h.targetModule? ht r
      · exact .none

theorem qualifyModule? (h : Steady f s s') (ht : t.file ≠ f) (node : NodeId) :
    s'.qualifyModule? t node module = s.qualifyModule? t node module := by
  unfold Scope.qualifyModule?
  rw [h.identity module]
  cases henclosing : t.enclosingModule? node with
  | none => rfl
  | some enclosing =>
    have hfile : enclosing.file ≠ f := Tree.file_of_enclosingModule? henclosing ▸ ht
    simp only [Option.bind_some, moduleFrom?, h.differs.identity? hfile]

/-- A reference that does not resolve into the file has the same full name. -/
theorem canonicalPath? (h : Steady f s s') (hr : r.file ≠ f)
    (hd : ∀ d, s.resolve? r = some d → d.file ≠ f) :
    s'.canonicalPath? r = s.canonicalPath? r := by
  unfold Scope.canonicalPath?
  unfold Scope.resolve? Scope.resolvePath? at hd
  rw [h.reference? hr, h.differs r.file hr, h.aliases]
  cases href : s.reference? r with
  | none => rfl
  | some reference =>
    obtain ⟨path, space⟩ := reference
    cases ht : s.program.tree? r.file with
    | none => rfl
    | some t =>
      have htf : t.file ≠ f := Program.file_of_tree? ht ▸ hr
      have hpath : s'.qualifyPath? t r path space = s.qualifyPath? t r path space := by
        simp only [href, ht, Option.bind_eq_bind, Option.bind_some] at hd
        unfold Scope.qualifyPath?
        split
        · rfl
        · rw [h.qualifyModule? htf r]
        · next haddress hmodule =>
          simp only [haddress, hmodule] at hd
          unfold Scope.qualify?
          rcases h.simple? htf r with ⟨d, -, hsimple, -, hfile, -⟩ | ⟨hsimple, -⟩
          · exact absurd hfile (hd d hsimple)
          · rw [hsimple]
            cases hdecl : s.simple? t r path.name space with
            | none => rfl
            | some decl =>
              have hdecl := hd decl hdecl
              simp only [h.differs.parent? hdecl]
              cases hparent : s.program.parent? decl with
              | none => rfl
              | some m =>
                simp only [Option.bind_some,
                  h.differs.identity? (Program.file_of_parent? hparent ▸ hdecl)]
        · rfl
      simp only [Option.bind_eq_bind, Option.bind_some, hpath]

end Steady

end Scope

end MoveTyping
