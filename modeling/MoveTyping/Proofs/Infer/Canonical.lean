import MoveTyping.Proofs.Catalog.Canonical
import MoveTyping.Proofs.Infer.Ensures

/-!
# Canonical answers

Every rule gives a canonical type if it is told canonical ones. An annotation denotes a canonical
type whatever the names in it resolve to, so what declarations say is canonical in any environment;
only what is read from the library depends on the library.

## Main results

* `Env.upholds_canonical` — the rules over a canonical library keep types canonical.
-/

namespace MoveTyping

variable {t : Ty} {args : List Ty} {node decl : NodeId}

theorem Ty.canonical_getD {o : Option Ty} (h : ∀ t ∈ o, t.Canonical) :
    (o.getD .unknown).Canonical := by
  cases o with
  | none => exact canonical_unknown
  | some t => exact h t rfl

theorem Ty.canonical_guard {p : Prop} [Decidable p] (h : t.Canonical) :
    (if p then t else .unknown).Canonical := by
  split
  · exact h
  · exact canonical_unknown

theorem Ty.Canonical.component (h : t.Canonical) (i : Nat) : (t.component i).Canonical := by
  cases t with
  | tuple elems =>
    refine canonical_getD fun u hu => ?_
    exact (canonical_tuple.1 h).2 u (List.mem_of_getElem? hu)
  | _ => exact canonical_unknown

/-! ## Literals and operators -/

theorem Literal.canonical_suffixed {plain : Ty} (h : plain.Canonical) (suffix : List Char) :
    (suffixed plain suffix).Canonical := by
  unfold suffixed
  split
  · exact h
  · refine Ty.canonical_getD fun t ht => ?_
    obtain ⟨kind, -, rfl⟩ := Option.map_eq_some_iff.1 ht
    exact Ty.canonical_prim kind

theorem Literal.canonical_typeOfSplit {plain : Ty} (h : plain.Canonical)
    (split : Option (List Char × List Char)) : (numberType.typeOfSplit plain split).Canonical := by
  cases split with
  | none => exact Ty.canonical_unknown
  | some parts => exact canonical_suffixed h parts.2

theorem Literal.canonical_type (text : String) : (type text).Canonical := by
  unfold type numberType
  split
  · exact Ty.canonical_prim .bool
  · split
    · exact Ty.canonical_prim .address
    · simp
    · simp
    · exact Ty.canonical_prim .string
    · split <;> exact canonical_typeOfSplit (Ty.canonical_prim _) _

theorem Operand.canonical_adapt {l r : Operand} (hl : l.ty.Canonical) (hr : r.ty.Canonical) :
    (l.adapt r).1.Canonical := by
  unfold adapt
  split
  · exact hr
  · split <;> exact hl

theorem BinaryOp.canonical_type (op : BinaryOp) {l r : Operand} (hl : l.ty.Canonical)
    (hr : r.ty.Canonical) : (op.type l r).Canonical := by
  unfold type
  split
  · exact Ty.canonical_guard (Operand.canonical_adapt hl hr)
  · exact Ty.canonical_guard (Operand.canonical_adapt hl hr)
  · exact Ty.canonical_prim .bool
  · exact Ty.canonical_guard (Ty.canonical_prim .bool)
  · exact Ty.canonical_guard hl

theorem UnaryOp.canonical_type (op : UnaryOp) (h : t.Canonical) : (op.type t).Canonical := by
  cases op with
  | not => exact Ty.canonical_guard h
  | neg => exact Ty.canonical_guard h
  | deref =>
    cases t with
    | ref inner mutable => exact Ty.canonical_ref.1 h
    | _ => exact Ty.canonical_unknown
  | borrow => exact Ty.canonical_ref.2 h
  | borrowMut => exact Ty.canonical_ref.2 h
  | move => exact h
  | copy => exact h

/-- A vector has the type of its unified elements. -/
theorem Operand.canonical_vectorType {ops : List Operand} (h : ∀ o ∈ ops, o.ty.Canonical) :
    (vectorType ops).Canonical := by
  have hadapted : ∀ t ∈ adaptAll ops, t.Canonical := by
    unfold adaptAll
    split
    · next t ht =>
      obtain ⟨first, hfirst, rfl⟩ := Option.map_eq_some_iff.1 ht
      have hadopted : first.ty.Canonical := h first (List.mem_of_find?_eq_some hfirst)
      intro u hu
      obtain ⟨o, ho, rfl⟩ := List.mem_map.1 hu
      split
      · exact hadopted
      · exact h o ho
    · simpa using h
  refine Ty.canonical_getD fun t ht => ?_
  obtain ⟨u, hu, rfl⟩ := Option.map_eq_some_iff.1 ht
  exact Ty.canonical_vector.2 (Ty.canonical_of_unifyAll? hadapted hu)

/-! ## Literals of structs -/

theorem Record.canonical_literalType (r : Record) {explicit : List Ty} {inits : List (String × Ty)}
    (hexplicit : ∀ t ∈ explicit, t.Canonical) (hinits : ∀ init ∈ inits, init.2.Canonical) :
    (r.literalType explicit inits).Canonical := by
  unfold literalType
  split
  · exact Ty.canonical_ofName r.name hexplicit
  · have hbound : (inits.foldl r.bindField ∅).Canonical := by
      refine List.foldlRecOn _ _ Subst.canonical_empty fun s hs init hinit => ?_
      unfold bindField
      split
      · exact hs.bindMatching r.paramNames _ (hinits init hinit)
      · exact hs
    exact hbound.apply r.canonical_declaredType

/-! ## Annotations and declarations -/

namespace Env

variable {env : Env}

theorem canonical_keywordType? {path : QName} (hargs : ∀ u ∈ args, u.Canonical)
    (ht : keywordType? path args = some t) : t.Canonical := by
  unfold keywordType? at ht
  split at ht
  · split at ht
    · obtain rfl := Option.some.inj ht
      exact Ty.canonical_generic.2 ⟨fun _ => rfl, hargs⟩
    · obtain ⟨kind, -, rfl⟩ := Option.map_eq_some_iff.1 ht
      exact Ty.canonical_prim kind
  · cases ht

theorem canonical_libraryType (env : Env) (node : NodeId) (hargs : ∀ u ∈ args, u.Canonical) :
    (env.libraryType node args).Canonical := by
  unfold libraryType
  split
  · exact Ty.canonical_unknown
  · split
    · exact Ty.canonical_prim _
    · exact Ty.canonical_guard (Ty.canonical_ofName _ hargs)

theorem canonical_namedType (env : Env) (node : NodeId) (hargs : ∀ u ∈ args, u.Canonical) :
    (env.namedType node args).1.Canonical := by
  unfold namedType
  split
  · exact Ty.canonical_var _ _
  · refine Ty.canonical_getD fun t ht => ?_
    obtain ⟨name, -, rfl⟩ := Option.map_eq_some_iff.1 ht
    exact Ty.canonical_ofName name hargs
  · exact env.canonical_libraryType node hargs

theorem canonical_denoteWithin (env : Env) (depth : Nat) (node : NodeId) :
    (env.denoteWithin depth node).1.Canonical := by
  induction depth generalizing node with
  | zero => exact Ty.canonical_unknown
  | succ depth ih =>
    -- arguments and elements are one level deeper
    have hparts : ∀ nodes : List NodeId,
        ∀ t ∈ (nodes.map (env.denoteWithin depth)).map Prod.fst, t.Canonical := by
      simpa using fun _ n _ => ih n
    unfold denoteWithin
    split
    · exact Ty.canonical_ref.2 (ih _)
    · exact Ty.canonical_ofElems (hparts _)
    · dsimp only
      split
      · next t ht => exact canonical_keywordType? (hparts _) ht
      · exact env.canonical_namedType node (hparts _)
    · exact Ty.canonical_unknown

theorem canonical_denote (env : Env) (node : NodeId) : (env.denote node).1.Canonical :=
  env.canonical_denoteWithin _ node

theorem canonical_denoteAll (env : Env) (nodes : List NodeId) :
    ∀ t ∈ (env.denoteAll nodes).1, t.Canonical := by
  simpa [denoteAll] using fun n _ => env.canonical_denote n

theorem canonical_structRecord? {r : Record} (h : env.structRecord? decl = some r) :
    r.Canonical := by
  unfold structRecord? at h
  split at h
  · obtain ⟨name, -, rfl⟩ := Option.map_eq_some_iff.1 h
    intro f hf
    obtain ⟨field, -, hfield⟩ := List.mem_filterMap.1 hf
    split at hfield
    · obtain rfl := Option.some.inj hfield
      exact env.canonical_denote _
    · cases hfield
  · cases h

theorem canonical_declaredRecords {r : Record} {file : FileId}
    (h : r ∈ env.declaredRecords file) : r.Canonical := by
  unfold declaredRecords at h
  split at h
  · obtain ⟨decl, -, hdecl⟩ := List.mem_filterMap.1 h
    exact canonical_structRecord? hdecl
  · cases h

theorem canonical_paramType (env : Env) (param : NodeId) : (env.paramType param).1.Canonical := by
  unfold paramType
  split
  · exact env.canonical_denote _
  · exact Ty.canonical_unknown

theorem canonical_signature? {c : Callable} {files : List FileId}
    (h : env.signature? decl = some (c, files)) : c.Canonical := by
  unfold signature? at h
  split at h
  · obtain ⟨rfl, -⟩ := Prod.mk.inj (Option.some.inj h)
    constructor
    · simpa using fun n _ => env.canonical_paramType n
    · next ret _ _ =>
      cases ret with
      | none => exact Ty.canonical_unit
      | some ty => exact env.canonical_denote ty
  · cases h

theorem canonical_found? (hc : env.catalog.Canonical) {q : QName} {r : Record}
    (h : env.found? q = some r) : r.Canonical := by
  unfold found? at h
  split at h
  · exact canonical_structRecord? h
  · exact hc.structs h

theorem canonical_libraryValue (hc : env.catalog.Canonical) (node : NodeId) {explicit : List Ty}
    (hexplicit : ∀ t ∈ explicit, t.Canonical) : (env.libraryValue node explicit).Canonical := by
  unfold libraryValue
  split
  · exact Ty.canonical_unknown
  · split
    · next hconstant => exact hc.constants hconstant
    · next f hfunction =>
      exact (Subst.canonical_ofArgs _ hexplicit).apply (hc.functions hfunction).type
    · exact Ty.canonical_unknown

/-! ## Rules -/

/-- A rule that gives a canonical type if it is told canonical types and records. -/
abbrev GivesCanonical (rule : Rule Ty) : Prop :=
  rule.Ensures Ty.Canonical Record.Canonical Ty.Canonical

theorem givesCanonical_typeOf (node : NodeId) : GivesCanonical (.typeOf node) :=
  Rule.ensures_typeOf Ty.canonical_unknown node

theorem givesCanonical_denote (env : Env) (node : NodeId) :
    GivesCanonical (.reading (env.denote node)) :=
  Rule.ensures_reading (env.canonical_denote node)

theorem ensures_denoteAll (env : Env) (nodes : List NodeId) :
    (Rule.reading (env.denoteAll nodes)).Ensures Ty.Canonical Record.Canonical
      fun ts => ∀ t ∈ ts, t.Canonical :=
  Rule.ensures_reading (env.canonical_denoteAll nodes)

theorem givesCanonical_annotatedRule (env : Env) (ty init : Option NodeId) :
    GivesCanonical (env.annotatedRule ty init) := by
  unfold annotatedRule
  split
  · exact env.givesCanonical_denote _
  · exact givesCanonical_typeOf _
  · exact Rule.ensures_pure Ty.canonical_unknown

theorem givesCanonical_bindingRule (env : Env) (name : NodeId) :
    GivesCanonical (env.bindingRule name) := by
  unfold bindingRule
  split
  · next site _ =>
    refine (env.givesCanonical_annotatedRule site.ty site.init).bind fun t ht => ?_
    exact Rule.ensures_pure (List.foldlRecOn _ _ ht fun u hu i _ => hu.component i)
  · exact Rule.ensures_pure Ty.canonical_unknown

theorem givesCanonical_pathRule (hc : env.catalog.Canonical) (node : NodeId) (typeArgs : Slice) :
    GivesCanonical (env.pathRule node typeArgs) := by
  unfold pathRule
  refine (env.ensures_denoteAll _).bind fun explicit hexplicit => ?_
  split
  · exact Rule.ensures_pure (canonical_libraryValue hc node hexplicit)
  · refine (givesCanonical_typeOf _).bind fun t ht => Rule.ensures_pure ?_
    exact (Subst.canonical_ofArgs _ hexplicit).apply ht

/-- What a call of a declaration means is canonical. -/
theorem ensures_callableRule (env : Env) (decl : NodeId) :
    (env.callableRule decl).Ensures Ty.Canonical Record.Canonical
      fun c => ∀ callable ∈ c, callable.Canonical := by
  unfold callableRule
  split
  · exact Rule.ensures_pure (by simp)
  · split
    · next callable files hsignature =>
      refine (Rule.ensures_reading (canonical_signature? hsignature)).bind fun c hc => ?_
      exact Rule.ensures_pure (by simpa using hc)
    · exact Rule.ensures_pure (by simp)
  · refine (givesCanonical_typeOf decl).bind fun t ht => ?_
    split
    · next params ret =>
      obtain ⟨hparams, hret⟩ := Ty.canonical_func.1 ht
      exact Rule.ensures_pure (by simpa using ⟨hparams, hret⟩)
    · exact Rule.ensures_pure (by simp)

theorem ensures_calleeRule (hc : env.catalog.Canonical) (callee : NodeId) :
    (env.calleeRule callee).Ensures Ty.Canonical Record.Canonical
      fun c => ∀ x ∈ c, x.callable.Canonical ∧ ∀ t ∈ x.explicit, t.Canonical := by
  have htarget : (env.targetCallableRule callee).Ensures Ty.Canonical Record.Canonical
      fun c => ∀ callable ∈ c, callable.Canonical := by
    unfold targetCallableRule
    split
    · exact env.ensures_callableRule _
    · refine Rule.ensures_pure fun callable h => ?_
      obtain ⟨f, hf, rfl⟩ := Option.map_eq_some_iff.1 h
      obtain ⟨name, -, hname⟩ := Option.bind_eq_some_iff.1 hf
      exact hc.functions hname
  unfold calleeRule
  split
  · refine (env.ensures_denoteAll _).bind fun explicit hexplicit => ?_
    refine htarget.bind fun c hcallable => Rule.ensures_pure fun x hx => ?_
    obtain ⟨callable, h, rfl⟩ := Option.map_eq_some_iff.1 hx
    exact ⟨hcallable callable h, hexplicit⟩
  · exact Rule.ensures_pure (by simp)

theorem givesCanonical_callRule (hc : env.catalog.Canonical) (callee : NodeId) (args : Slice) :
    GivesCanonical (env.callRule callee args) := by
  refine (Rule.ensures_typesOf Ty.canonical_unknown _).bind fun args hargs => ?_
  refine (ensures_calleeRule hc callee).bind fun c hcallee => ?_
  cases c with
  | none => exact Rule.ensures_pure Ty.canonical_unknown
  | some x =>
    obtain ⟨hcallable, hexplicit⟩ := hcallee x rfl
    exact Rule.ensures_pure (hcallable.result hexplicit hargs)

theorem ensures_operand (env : Env) (node : NodeId) :
    (env.operand node).Ensures Ty.Canonical Record.Canonical fun o => o.ty.Canonical :=
  (givesCanonical_typeOf node).bind fun _ ht => Rule.ensures_pure ht

theorem givesCanonical_binaryRule (env : Env) (op : BinaryOp) (lhs rhs : NodeId) :
    GivesCanonical (env.binaryRule op lhs rhs) :=
  (env.ensures_operand lhs).bind fun _ hl => (env.ensures_operand rhs).bind fun _ hr =>
    Rule.ensures_pure (op.canonical_type hl hr)

theorem givesCanonical_unaryRule (op : UnaryOp) (operand : NodeId) :
    GivesCanonical (unaryRule op operand) :=
  (givesCanonical_typeOf operand).bind fun _ ht => Rule.ensures_pure (op.canonical_type ht)

theorem givesCanonical_packRule (env : Env) (target : NodeId) (fields : Slice) :
    GivesCanonical (env.packRule target fields) := by
  have hinits : ∀ nodes, (env.initsRule nodes).Ensures Ty.Canonical Record.Canonical
      fun inits => ∀ init ∈ inits, init.2.Canonical := by
    refine fun nodes => Rule.ensures_mapM fun init _ => ?_
    exact (givesCanonical_typeOf init.2).bind fun _ ht => Rule.ensures_pure ht
  refine (hinits _).bind fun inits hinits => ?_
  split
  · -- only the name and the parameters of the record get into the type, so it may be any record
    refine (Rule.ensures_trivial (env.targetRule target)).bind fun r _ => ?_
    cases r with
    | none => exact Rule.ensures_pure Ty.canonical_unknown
    | some r =>
      refine (env.ensures_denoteAll _).bind fun explicit hexplicit => ?_
      exact Rule.ensures_pure (r.canonical_literalType hexplicit hinits)
  · exact Rule.ensures_pure Ty.canonical_unknown

theorem givesCanonical_fieldRule (base : NodeId) (field : String) :
    GivesCanonical (fieldRule base field) := by
  refine (givesCanonical_typeOf base).bind fun t ht => ?_
  split
  · next name args hnominal =>
    refine (Rule.ensures_record? name).bind fun r hr => Rule.ensures_pure ?_
    refine Ty.canonical_getD fun u hu => ?_
    obtain ⟨x, hx, hu⟩ := Option.bind_eq_some_iff.1 hu
    exact (hr x hx).fieldType? (ht.nominal? hnominal) hu
  · exact Rule.ensures_pure Ty.canonical_unknown

theorem givesCanonical_vectorRule (env : Env) (node : NodeId) (elemTy : Option NodeId)
    (elems : Slice) : GivesCanonical (env.vectorRule node elemTy elems) := by
  unfold vectorRule
  split
  · next ty =>
    refine (Rule.ensures_trivial _).bind fun _ _ => ?_
    refine (env.givesCanonical_denote ty).bind fun t ht => ?_
    exact Rule.ensures_pure (Ty.canonical_vector.2 ht)
  · dsimp only
    split
    · unfold emptyVectorRule
      split
      · refine (env.givesCanonical_denote _).bind fun t ht => ?_
        exact Rule.ensures_pure (Ty.canonical_guard ht)
      · exact Rule.ensures_pure Ty.canonical_unknown
    · refine (Rule.ensures_mapM fun node _ => env.ensures_operand node).bind fun ops hops => ?_
      exact Rule.ensures_pure (Operand.canonical_vectorType hops)

theorem givesCanonical_tupleRule (env : Env) (node : NodeId) (elems : Slice) :
    GivesCanonical (env.tupleRule node elems) :=
  (Rule.ensures_typesOf Ty.canonical_unknown _).bind fun _ hts =>
    Rule.ensures_pure (Ty.canonical_ofElems hts)

theorem givesCanonical_indexRule (base : NodeId) : GivesCanonical (indexRule base) :=
  (givesCanonical_typeOf base).bind fun _ ht =>
    Rule.ensures_pure (Ty.canonical_getD fun _ hu => ht.element? hu)

theorem givesCanonical_blockRule (env : Env) (node : NodeId) (stmts : Slice) :
    GivesCanonical (env.blockRule node stmts) := by
  unfold blockRule
  split
  · exact givesCanonical_typeOf _
  · exact Rule.ensures_pure Ty.canonical_unit

theorem givesCanonical_ifRule (env : Env) (thenBranch : NodeId) (elseBranch : Option NodeId) :
    GivesCanonical (env.ifRule thenBranch elseBranch) := by
  have helse : GivesCanonical (elseRule elseBranch) := by
    cases elseBranch with
    | none => exact Rule.ensures_pure Ty.canonical_unit
    | some branch => exact givesCanonical_typeOf branch
  unfold ifRule
  split
  · exact Rule.ensures_pure Ty.canonical_unknown
  · exact helse
  · exact givesCanonical_typeOf thenBranch
  · refine (givesCanonical_typeOf thenBranch).bind fun t ht => helse.bind fun u hu => ?_
    exact Rule.ensures_pure (Ty.canonical_getD fun _ hv => ht.unify? hu hv)

theorem ensures_kindRule (hc : env.catalog.Canonical) (node : NodeId) (kind : NodeKind) :
    (env.kindRule node kind).Ensures Ty.Canonical Record.Canonical
      fun t => ∀ u ∈ t, u.Canonical := by
  have hsome : ∀ {rule : Rule Ty}, GivesCanonical rule →
      (some <$> rule).Ensures Ty.Canonical Record.Canonical fun t => ∀ u ∈ t, u.Canonical :=
    fun h => h.map fun t ht => by simpa using ht
  cases kind with
  | literal text => exact Rule.ensures_pure (by simpa using Literal.canonical_type text)
  | path path typeArgs => exact hsome (givesCanonical_pathRule hc node typeArgs)
  | call callee args => exact hsome (givesCanonical_callRule hc callee args)
  | binary op lhs rhs => exact hsome (env.givesCanonical_binaryRule op lhs rhs)
  | unary op operand => exact hsome (givesCanonical_unaryRule op operand)
  | pack target fields => exact hsome (env.givesCanonical_packRule target fields)
  | fieldInit name value => exact hsome (givesCanonical_typeOf value)
  | vector elemTy elems => exact hsome (env.givesCanonical_vectorRule node elemTy elems)
  | tuple elems => exact hsome (env.givesCanonical_tupleRule node elems)
  | index base i => exact hsome (givesCanonical_indexRule base)
  | block stmts => exact hsome (env.givesCanonical_blockRule node stmts)
  | ifElse cond thenBranch elseBranch =>
    exact hsome (env.givesCanonical_ifRule thenBranch elseBranch)
  | cast expr ty => exact hsome (env.givesCanonical_denote ty)
  | fieldAccess base field => exact hsome (givesCanonical_fieldRule base field)
  | function =>
    rw [kindRule]
    split
    · next callable files hsignature =>
      exact hsome (Rule.ensures_reading (canonical_signature? hsignature).type)
    · exact Rule.ensures_pure (by simp)
  | struct =>
    refine Rule.ensures_pure fun t ht => ?_
    obtain ⟨r, -, rfl⟩ := Option.map_eq_some_iff.1 ht
    exact r.canonical_declaredType
  | const name ty value => exact hsome (env.givesCanonical_annotatedRule ty value)
  | param => exact hsome (Rule.ensures_reading (env.canonical_paramType node))
  | fieldDecl name ty => exact hsome (env.givesCanonical_denote ty)
  | bindName name => exact hsome (env.givesCanonical_bindingRule node)
  | typePath => exact hsome (env.givesCanonical_denote node)
  | typeRef => exact hsome (env.givesCanonical_denote node)
  | typeTuple => exact hsome (env.givesCanonical_denote node)
  | _ => exact Rule.ensures_pure (by simp [Ty.unit])

/-- Over a canonical library, rules and records keep types canonical. -/
theorem upholds_canonical (hc : env.catalog.Canonical) :
    env.Upholds Ty.Canonical Record.Canonical where
  unknown := Ty.canonical_unknown
  rule n := by
    unfold rule
    split
    · exact ensures_kindRule hc n _
    · exact Rule.ensures_pure (by simp)
  record := canonical_found? hc

end Env

end MoveTyping
