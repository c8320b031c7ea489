import MoveTyping.Infer.Declaration
import MoveTyping.Proofs.Scope.Outline

/-!
# Locality of environments

What an environment says about other files after an edit of one file. Types of annotations and
signatures come with the files that they are derived from: those that do not come from the edited
file stay the same.

## Main definitions

* `Env.DiffersAt` — two environments that differ in one file.
* `Env.Edited` — two environments that differ by an edit of one file.
-/

namespace MoveTyping

namespace Env

variable {f : FileId} {env env' : Env} {n r decl c : NodeId} {kind : NodeKind}

/-- Two environments that differ in one file. -/
structure DiffersAt (f : FileId) (env env' : Env) : Prop where
  catalog : env'.catalog = env.catalog
  program : env.program.DiffersAt f env'.program
  closed : env.program.Closed

/-- Two environments that differ by an edit of one file. References of other files that do not
resolve into this file resolve as before, and structs of other files have the same records. -/
structure Edited (f : FileId) (env env' : Env) : Prop extends DiffersAt f env env' where
  foreign : ∀ {r d}, r.file ≠ f → env.resolver.resolve r = some d → d.file = f →
    ∃ kind, env.program.kind? d = some kind ∧
      ∀ path args, env.program.kind? r = some (.typePath path args) →
        kind.offer?.map Prod.fst = some .type
  names : ∀ {r}, r.file ≠ f → (∃ d, env.resolver.resolve r = some d ∧ d.file = f) ∨
    (env'.resolver.resolve r = env.resolver.resolve r ∧
      env'.resolver.canonical r = env.resolver.canonical r)
  structs : ∀ {d}, d.file ≠ f → env'.structRecord? d = env.structRecord? d

/-- The type of a name that denotes a struct. -/
theorem namedType_eq_of_offer (hd : env.resolver.resolve n = some decl)
    (hk : env.program.kind? decl = some kind) (hoffer : kind.offer?.map Prod.fst = some .type)
    {args : List Ty} : env.namedType n args =
      (((env.itemName? decl).map fun name => Ty.ofName name args).getD .unknown, [decl.file]) := by
  unfold namedType
  rw [hd, Option.bind_some, hk]
  cases kind <;> simp_all [NodeKind.offer?, NodeKind.declaration?, ItemKind.space]

theorem signature?_eq {name : String} {typeParams params : Slice} {ret body : Option NodeId}
    (hk : env.program.kind? n = some (.function name typeParams params ret body)) :
    env.signature? n = some
      (⟨env.typeParams n.file typeParams,
        ((env.program.list n.file params).map env.paramType).map Prod.fst,
        ((ret.map env.denote).getD (.unit, [])).1⟩,
      ((env.program.list n.file params).map env.paramType).flatMap Prod.snd ++
        ((ret.map env.denote).getD (.unit, [])).2) := by
  unfold signature?
  split
  · next hk' =>
    rw [hk] at hk'
    cases hk'
    -- the denotation is a large term by its depth, and is better not looked into
    generalize (ret.map env.denote).getD (.unit, []) = result
    rfl
  · next hno => exact absurd hk (hno _ _ _ _ _)

namespace DiffersAt

theorem child (h : DiffersAt f env env') (hn : n.file ≠ f) (hk : env.program.kind? n = some kind)
    (hc : c ∈ kind.children (env.program.list n.file)) : c.file ≠ f :=
  h.closed.child hk hc ▸ hn

theorem abilities (h : DiffersAt f env env') {g : FileId} (hg : g ≠ f) {slice : Slice}
    (hslice : ∀ c ∈ env.program.list g slice, c.file ≠ f) :
    env'.abilities g slice = env.abilities g slice := by
  unfold Env.abilities
  rw [h.program.list hg]
  refine congrArg AbilitySet.ofKeywords (List.filterMap_congr fun c hc => ?_)
  rw [h.program.kind? (hslice c hc)]

theorem typeParams (h : DiffersAt f env env') {g : FileId} (hg : g ≠ f) {slice : Slice}
    (hslice : ∀ c ∈ env.program.list g slice, c.file = g) :
    env'.typeParams g slice = env.typeParams g slice := by
  unfold Env.typeParams
  rw [h.program.list hg]
  refine List.filterMap_congr fun c hc => ?_
  have hfile := hslice c hc
  rw [h.program.kind? (hfile ▸ hg)]
  split
  · next name bounds phantom hk =>
    have hbounds : env'.abilities g bounds = env.abilities g bounds := by
      refine h.abilities hg fun b hb => h.child (hfile ▸ hg) hk ?_
      rw [hfile]
      exact hb
    rw [hbounds]
  · rfl

theorem itemName? (h : DiffersAt f env env') (hdecl : decl.file ≠ f) :
    env'.itemName? decl = env.itemName? decl := by
  unfold Env.itemName?
  rw [h.catalog, h.program.kind? hdecl, h.program.parent? hdecl]
  cases hm : env.program.parent? decl with
  | none => rfl
  | some m =>
    simp only [Option.bind_eq_bind, Option.bind_some,
      h.program.identity? (Program.file_of_parent? hm ▸ hdecl)]

theorem libraryType (h : DiffersAt f env env')
    (hname : env'.resolver.canonical n = env.resolver.canonical n) (args : List Ty) :
    env'.libraryType n args = env.libraryType n args := by
  rw [Env.libraryType, hname, h.catalog]
  rfl

theorem namedType_of_resolve (h : DiffersAt f env env')
    (hresolve : env'.resolver.resolve n = env.resolver.resolve n)
    (hcanonical : env'.resolver.canonical n = env.resolver.canonical n)
    (hout : ∀ d, env.resolver.resolve n = some d → d.file ≠ f) (args : List Ty) :
    env'.namedType n args = env.namedType n args := by
  unfold Env.namedType
  rw [hresolve, h.libraryType hcanonical]
  cases hd : env.resolver.resolve n with
  | none => rfl
  | some d =>
    have hfile := hout d hd
    simp only [Option.bind_some, h.program.kind? hfile]
    cases hkd : env.program.kind? d with
    | none => rfl
    | some kind =>
      cases kind with
      | typeParam name bounds phantom =>
        have hbounds : env'.abilities d.file bounds = env.abilities d.file bounds :=
          h.abilities hfile fun c hc => h.child hfile hkd hc
        simp only [Option.map_some, hbounds]
      | struct => simp only [Option.map_some, h.itemName? hfile]
      | _ => rfl

/-- The type of an annotation follows from those of the names in it. With `any` the types of all
names are the same, otherwise only those that are not derived from the file. -/
theorem denoteWithin (h : DiffersAt f env env') (any : Prop)
    (hnamed : ∀ {n path slice args}, n.file ≠ f →
      env.program.kind? n = some (.typePath path slice) →
      any ∨ f ∉ (env.namedType n args).2 → env'.namedType n args = env.namedType n args)
    (depth : Nat) (hn : n.file ≠ f) (hf : any ∨ f ∉ (env.denoteWithin depth n).2) :
    env'.denoteWithin depth n = env.denoteWithin depth n := by
  induction depth generalizing n with
  | zero => rfl
  | succ depth ih =>
    -- the parts of an annotation are in the same file, and so their types are the same
    have hparts : ∀ slice : Slice, (∀ c ∈ env.program.list n.file slice, c.file ≠ f) →
        any ∨ f ∉ ((env.program.list n.file slice).map (env.denoteWithin depth)).flatMap
          Prod.snd →
        (env.program.list n.file slice).map (env'.denoteWithin depth) =
          (env.program.list n.file slice).map (env.denoteWithin depth) := by
      intro slice hslice hf
      refine List.map_congr_left fun c hc => ih (hslice c hc) (hf.imp_right ?_)
      intro hno hmem
      exact hno (List.mem_flatMap.2 ⟨_, List.mem_map_of_mem hc, hmem⟩)
    rw [Env.denoteWithin, h.program.kind? hn, h.program.list hn]
    rw [Env.denoteWithin] at hf ⊢
    cases hk : env.program.kind? n with
    | none => rfl
    | some kind =>
      simp only [hk] at hf
      cases kind with
      | typeRef mutable inner =>
        have hinner := ih (h.child hn hk (by simp [NodeKind.children])) hf
        simp only [hinner]
      | typeTuple elems =>
        have helems := hparts elems (fun c hc => h.child hn hk hc) hf
        simp only [helems]
      | typePath path args =>
        simp only [List.mem_append, not_or] at hf
        have hargs := hparts args (fun c hc => h.child hn hk hc) (hf.imp_right And.left)
        simp only [hargs]
        cases hkey : keywordType? path ((env.program.list n.file args).map
            (env.denoteWithin depth) |>.map Prod.fst) with
        | some t => rfl
        | none =>
          simp only [hkey] at hf
          rw [hnamed hn hk (hf.imp_right And.right)]
      | _ => rfl

/-- A struct of another file has the same abilities and type parameters, and its fields are
elsewhere. -/
theorem struct (h : DiffersAt f env env') (hdecl : decl.file ≠ f) {name : String}
    {typeParams abilities fields : Slice} {isEnum : Bool}
    (hk : env.program.kind? decl = some (.struct name typeParams abilities fields isEnum)) :
    env'.abilities decl.file abilities = env.abilities decl.file abilities ∧
      env'.typeParams decl.file typeParams = env.typeParams decl.file typeParams ∧
      ∀ c ∈ env.program.list decl.file fields, c.file ≠ f := by
  have hchild : ∀ c, (c ∈ env.program.list decl.file typeParams ∨
      c ∈ env.program.list decl.file abilities) ∨ c ∈ env.program.list decl.file fields →
      c.file = decl.file := by
    intro c hc
    refine h.closed.child hk ?_
    simpa only [NodeKind.children, List.mem_append] using hc
  refine ⟨h.abilities hdecl fun c hc => ?_, ?_, fun c hc => ?_⟩
  · rw [hchild c (.inl (.inr hc))]
    exact hdecl
  · exact h.typeParams hdecl fun c hc => hchild c (.inl (.inl hc))
  · rw [hchild c (.inr hc)]
    exact hdecl

/-- The record of a struct follows from the types of its fields. -/
theorem structRecord? (h : DiffersAt f env env')
    (hdenote : ∀ {ty : NodeId}, ty.file ≠ f → (env'.denote ty).1 = (env.denote ty).1)
    (hdecl : decl.file ≠ f) : env'.structRecord? decl = env.structRecord? decl := by
  unfold Env.structRecord?
  rw [h.program.kind? hdecl, h.program.list hdecl, h.itemName? hdecl]
  split
  · next hk =>
    obtain ⟨habilities, htypeParams, hfields⟩ := h.struct hdecl hk
    refine congrArg (Option.map · _) (funext fun name => ?_)
    rw [Record.mk.injEq]
    refine ⟨rfl, habilities, htypeParams, List.filterMap_congr fun c hc => ?_, rfl, rfl⟩
    have hc : c.file ≠ f := hfields c hc
    rw [h.program.kind? hc]
    split
    · next hkc => rw [hdenote (h.child hc hkc (by simp [NodeKind.children]))]
    · rfl
  · rfl

end DiffersAt

namespace Edited

/-- A reference resolves into the file, or it resolves as before to something outside. -/
theorem resolve_cases (h : Edited f env env') (hn : n.file ≠ f) :
    (∃ d, env.resolver.resolve n = some d ∧ d.file = f) ∨
      (env'.resolver.resolve n = env.resolver.resolve n ∧
        env'.resolver.canonical n = env.resolver.canonical n ∧
        ∀ d, env.resolver.resolve n = some d → d.file ≠ f) := by
  by_cases hd : ∃ d, env.resolver.resolve n = some d ∧ d.file = f
  · exact .inl hd
  · obtain ⟨hresolve, hcanonical⟩ := (h.names hn).resolve_left hd
    exact .inr ⟨hresolve, hcanonical, fun d hr hfile => hd ⟨d, hr, hfile⟩⟩

/-! ### Annotations -/

/-- A type whose name resolves into the file is derived from the file. -/
theorem namedType (h : Edited f env env') (hn : n.file ≠ f) {path : QName} {slice : Slice}
    (hk : env.program.kind? n = some (.typePath path slice)) {args : List Ty}
    (hf : f ∉ (env.namedType n args).2) : env'.namedType n args = env.namedType n args := by
  rcases h.resolve_cases hn with ⟨d, hd, hfile⟩ | ⟨hresolve, hcanonical, hout⟩
  · obtain ⟨kind, hkd, hoffer⟩ := h.foreign hn hd hfile
    rw [namedType_eq_of_offer hd hkd (hoffer path slice hk)] at hf
    exact absurd (List.mem_singleton.2 hfile.symm) hf
  · exact h.namedType_of_resolve hresolve hcanonical hout args

theorem denote (h : Edited f env env') (hn : n.file ≠ f) (hf : f ∉ (env.denote n).2) :
    env'.denote n = env.denote n :=
  h.denoteWithin False (fun hn hk hf => h.namedType hn hk (hf.resolve_left id)) _ hn (.inr hf)

theorem denoteAll (h : Edited f env env') {nodes : List NodeId} (hn : ∀ n ∈ nodes, n.file ≠ f)
    (hf : f ∉ (env.denoteAll nodes).2) : env'.denoteAll nodes = env.denoteAll nodes := by
  have hmap : nodes.map env'.denote = nodes.map env.denote := by
    refine List.map_congr_left fun n hmem => h.denote (hn n hmem) fun hfile => hf ?_
    exact List.mem_flatMap.2 ⟨_, List.mem_map_of_mem hmem, hfile⟩
  simp only [Env.denoteAll, hmap]

theorem paramType (h : Edited f env env') (hn : n.file ≠ f) (hf : f ∉ (env.paramType n).2) :
    env'.paramType n = env.paramType n := by
  unfold Env.paramType at hf ⊢
  rw [h.program.kind? hn]
  split
  · next name ty hk =>
    simp only [hk] at hf
    exact h.denote (h.child hn hk (by simp [NodeKind.children])) hf
  · rfl

/-- A function has a signature by its kind alone, and its signature tells its files. -/
theorem signature? (h : Edited f env env') (hn : n.file ≠ f) :
    (∃ callable files, env.signature? n = some (callable, files) ∧ f ∈ files) ∨
      env'.signature? n = env.signature? n := by
  by_cases hfunction : ∃ name typeParams params ret body,
      env.program.kind? n = some (.function name typeParams params ret body)
  · obtain ⟨name, typeParams, params, ret, body, hk⟩ := hfunction
    rw [signature?_eq hk, signature?_eq ((h.program.kind? hn).trans hk), h.program.list hn]
    by_cases hf : f ∈ ((env.program.list n.file params).map env.paramType).flatMap Prod.snd ++
        ((ret.map env.denote).getD (.unit, [])).2
    · exact .inl ⟨_, _, rfl, hf⟩
    · right
      simp only [List.mem_append, not_or] at hf
      have hchild : ∀ c, ((c ∈ env.program.list n.file typeParams ∨
          c ∈ env.program.list n.file params) ∨ c ∈ ret.toList) ∨ c ∈ body.toList →
          c.file = n.file := by
        intro c hc
        refine h.closed.child hk ?_
        simpa only [NodeKind.children, List.mem_append] using hc
      have hparams : (env.program.list n.file params).map env'.paramType =
          (env.program.list n.file params).map env.paramType := by
        refine List.map_congr_left fun c hc => h.paramType ?_ fun hmem => hf.1 ?_
        · rw [hchild c (.inl (.inl (.inr hc)))]
          exact hn
        · exact List.mem_flatMap.2 ⟨_, List.mem_map_of_mem hc, hmem⟩
      have hret : (ret.map env'.denote).getD (.unit, []) =
          (ret.map env.denote).getD (.unit, []) := by
        cases ret with
        | none => simp only [Option.map_none]
        | some ty =>
          simp only [Option.map_some, Option.getD_some] at hf ⊢
          refine h.denote ?_ hf.2
          rw [hchild ty (.inl (.inr (by simp)))]
          exact hn
      have htypes : env'.typeParams n.file typeParams = env.typeParams n.file typeParams :=
        h.typeParams hn fun c hc => hchild c (.inl (.inl (.inl hc)))
      rw [hparams, hret, htypes]
  · right
    have hnone : ∀ {env : Env}, (¬∃ name typeParams params ret body,
        env.program.kind? n = some (.function name typeParams params ret body)) →
        env.signature? n = none := by
      intro env hno
      unfold Env.signature?
      split
      · next hk => exact absurd ⟨_, _, _, _, _, hk⟩ hno
      · rfl
    rw [hnone hfunction, hnone (h.program.kind? hn ▸ hfunction)]

end Edited

/-! ## Environments of programs -/

section OfProgram

variable {p p' : Program} {catalog : Catalog}

theorem itemName?_ofProgram (p : Program) (catalog : Catalog) (d : NodeId) :
    (ofProgram p catalog).itemName? d =
      (p.fullName? d).map fun (address, module, name) =>
        .full (catalog.aliases.normalize address) module name := by
  simp only [itemName?, ofProgram, Program.fullName?, Option.bind_eq_bind]
  cases p.kind? d with
  | none => rfl
  | some kind =>
    cases hname : kind.declaredName? with
    | none => simp only [Option.bind_some, hname, Option.bind_none, Option.map_none]
    | some name =>
      cases hm : p.parent? d with
      | none => simp only [Option.bind_some, hname, Option.bind_none, Option.map_none]
      | some m => cases hidentity : p.identity? m <;> simp [hname, hidentity]

/-- What a reference finds in another file is an item, and a struct if it is a type. -/
theorem foreign_ofProgram {r d : NodeId}
    (hd : (ofProgram p catalog).resolver.resolve r = some d) (hfile : d.file ≠ r.file) :
    ∃ kind, p.kind? d = some kind ∧ ∀ path args, p.kind? r = some (.typePath path args) →
      kind.offer?.map Prod.fst = some .type := by
  obtain ⟨path, space, m, member, href, -, hitem⟩ := (Scope.resolve?_cases hd).resolve_left hfile
  obtain ⟨kind, hk, hdeclares⟩ := Scope.kind?_of_item? hitem
  refine ⟨kind, hk, fun path' args hkr => ?_⟩
  cases (Scope.reference?_typePath hkr).symm.trans href
  rw [NodeKind.declares_iff.1 hdeclares]
  rfl

theorem differsAt_of_steady
    (h : Scope.Steady f ⟨p, catalog.aliases⟩ ⟨p', catalog.aliases⟩) :
    DiffersAt f (ofProgram p catalog) (ofProgram p' catalog) :=
  ⟨rfl, h.differs, h.closed⟩

/-- Names that resolve into the file have the same type after the edit. -/
theorem namedType_of_steady (h : Scope.Steady f ⟨p, catalog.aliases⟩ ⟨p', catalog.aliases⟩)
    (hn : n.file ≠ f) {path : QName} {slice : Slice}
    (hk : p.kind? n = some (.typePath path slice)) (args : List Ty) :
    (ofProgram p' catalog).namedType n args = (ofProgram p catalog).namedType n args := by
  rcases h.resolve? hn with ⟨d, d', hd, hd', hfile, hfile', hname⟩ | ⟨hresolve, hout⟩
  · have hd : (ofProgram p catalog).resolver.resolve n = some d := hd
    have hd' : (ofProgram p' catalog).resolver.resolve n = some d' := hd'
    obtain ⟨kind, hkd, hoffer⟩ := foreign_ofProgram hd (hfile ▸ hn.symm)
    obtain ⟨kind', hkd', hoffer'⟩ := foreign_ofProgram hd' (hfile' ▸ hn.symm)
    have htype := @namedType_eq_of_offer (ofProgram p catalog) n d kind hd hkd
      (hoffer path slice hk) args
    have htype' := @namedType_eq_of_offer (ofProgram p' catalog) n d' kind' hd' hkd'
      (hoffer' path slice ((h.differs.kind? hn).trans hk)) args
    rw [htype, htype', itemName?_ofProgram, itemName?_ofProgram, hname, hfile, hfile']
  · exact (differsAt_of_steady h).namedType_of_resolve hresolve (h.canonicalPath? hn hout) hout args

/-- An edit that is not seen from outside leaves the other files as they are. -/
theorem edited_of_steady (h : Scope.Steady f ⟨p, catalog.aliases⟩ ⟨p', catalog.aliases⟩) :
    Edited f (ofProgram p catalog) (ofProgram p' catalog) where
  toDiffersAt := differsAt_of_steady h
  foreign hr hd hfile := foreign_ofProgram hd (hfile ▸ hr.symm)
  names {r} hr := by
    rcases h.resolve? hr with ⟨d, d', hd, -, hfile, -⟩ | ⟨hresolve, hout⟩
    · exact .inl ⟨d, hd, hfile⟩
    · exact .inr ⟨hresolve, h.canonicalPath? hr hout⟩
  structs {d} hd := by
    refine (differsAt_of_steady h).structRecord? (fun hty => ?_) hd
    refine congrArg Prod.fst ?_
    exact (differsAt_of_steady h).denoteWithin True
      (fun hn hk _ => namedType_of_steady h hn hk _) _ hty (.inl trivial)

end OfProgram

end Env

end MoveTyping
