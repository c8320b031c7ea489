import MoveTyping.Proofs.Catalog.Load
import MoveTyping.Proofs.Ty.Canonical

/-!
# Canonical catalogs

A text is read as a canonical type, whatever it looks like, so a catalog that loads holds canonical
types only. What is derived from a record or a function of the catalog is canonical again.

## Main definitions

* `Record.Canonical`, `Callable.Canonical`, `Catalog.Canonical` — all types within are canonical.

## Main results

* `Catalog.canonical_of_load` — a catalog that loads is canonical.
-/

namespace MoveTyping

variable {t : Ty} {args : List Ty}

/-! ## Records and functions -/

/-- The declared types of the fields are canonical. -/
def Record.Canonical (r : Record) : Prop := ∀ f ∈ r.fields, f.ty.Canonical

/-- The declared types of the parameters and of the result are canonical. -/
structure Callable.Canonical (c : Callable) : Prop where
  params : ∀ t ∈ c.params, t.Canonical
  ret : c.ret.Canonical

theorem Record.canonical_declaredType (r : Record) : r.declaredType.Canonical := by
  refine Ty.canonical_ofName r.name fun t ht => ?_
  obtain ⟨p, -, rfl⟩ := List.mem_map.1 ht
  exact Ty.canonical_var p.name p.bounds

theorem Record.Canonical.fieldType? {r : Record} {name : String} (h : r.Canonical)
    (hargs : ∀ u ∈ args, u.Canonical) (ht : r.fieldType? name args = some t) : t.Canonical := by
  obtain ⟨f, hf, rfl⟩ := Option.map_eq_some_iff.1 ht
  have hty : f.ty.Canonical := h f (List.mem_of_find?_eq_some hf)
  split
  · exact hty
  · exact (Subst.canonical_ofArgs r.paramNames hargs).apply hty

namespace Callable

variable {c : Callable} {explicit : List Ty}

theorem Canonical.type (h : c.Canonical) : c.type.Canonical := Ty.canonical_func.2 ⟨h.params, h.ret⟩

theorem canonical_arguments (c : Callable) (hexplicit : ∀ t ∈ explicit, t.Canonical)
    (hargs : ∀ t ∈ args, t.Canonical) : (c.arguments explicit args).Canonical := by
  unfold arguments
  split
  · have hpairs : ∀ p ∈ c.params.zip args, p.2.Canonical :=
      fun p hp => hargs p.2 (List.of_mem_zip hp).2
    exact List.foldlRecOn _ _ Subst.canonical_empty fun s hs p hp =>
      hs.bindMatching c.paramNames p.1 (hpairs p hp)
  · exact Subst.canonical_ofArgs c.paramNames hexplicit

theorem Canonical.result (h : c.Canonical) (hexplicit : ∀ t ∈ explicit, t.Canonical)
    (hargs : ∀ t ∈ args, t.Canonical) : (c.result explicit args).Canonical :=
  (c.canonical_arguments hexplicit hargs).apply h.ret

end Callable

/-! ## Texts -/

namespace Signature

variable {s : Scope} {segments : List String} {d : Derivation} {ts : List Ty} {text : String}

theorem Names.canonical (h : Names s segments args t) (hargs : ∀ u ∈ args, u.Canonical) :
    t.Canonical := by
  cases h with
  | param => exact Ty.canonical_var _ _
  | vector => exact Ty.canonical_generic.2 ⟨fun _ => rfl, hargs⟩
  | primitive => exact Ty.canonical_prim _
  | own _ _ _ _ h => exact isNominal_iff.1 h ▸ Ty.canonical_ofName _ hargs
  | inModule h => exact isNominal_iff.1 h ▸ Ty.canonical_ofName _ hargs
  | full h => exact isNominal_iff.1 h ▸ Ty.canonical_ofName _ hargs

theorem Denotes.canonical (h : Denotes s d ts) : ∀ t ∈ ts, t.Canonical := by
  induction h with
  | ref _ ih => simpa using ih
  | tuple _ h ih => simpa using isTuple_iff.1 h ▸ Ty.canonical_ofElems ih
  | path h => simpa using h.canonical (by simp)
  | apply _ h ih => simpa using h.canonical ih
  | empty => simp
  | last _ ih => exact ih
  | cons _ _ ih ih' => exact List.forall_mem_cons.2 ⟨ih _ List.mem_cons_self, ih'⟩

theorem canonical_of_parseType (h : parseType s text = .ok t) : t.Canonical := by
  obtain ⟨p, hp⟩ := parseType_eq_ok_iff.1 h
  exact hp.canonical t List.mem_cons_self

end Signature

/-! ## Loading -/

namespace Catalog

variable {c c' : Catalog} {d : ModuleDecl} {aliases : Aliases}

/-- All types in the tables are canonical. -/
structure Canonical (c : Catalog) : Prop where
  structs : ∀ {q r}, c.structs.get? q = some r → r.Canonical
  functions : ∀ {q f}, c.functions.get? q = some f → f.callable.Canonical
  constants : ∀ {q t}, c.constants.get? q = some t → t.Canonical

theorem locate_eq_ok_iff {α : Type} {item : String} {x : Except SignatureError α} {a : α} :
    d.locate item x = .ok a ↔ x = .ok a := by
  cases x <;> simp [ModuleDecl.locate, Except.mapError]

theorem canonical_loadStruct {s : StructDecl} {r : Record × Option Prim}
    (h : loadStruct aliases d s = .ok r) : r.1.Canonical := by
  simp only [loadStruct, bind_eq_ok_iff, locate_eq_ok_iff, mapM_eq_ok_iff] at h
  obtain ⟨typeParams, -, fields, hfields, abilities, -, h⟩ := h
  have hr : r.1.fields = fields := by
    split at h
    next => obtain rfl := Except.ok.inj h; rfl
    next =>
      split at h
      next => obtain rfl := Except.ok.inj h; rfl
      next => cases h
  intro f hf
  obtain ⟨decl, -, t, ht, hfield⟩ := exists_of_mem_forall₂ hfields (hr ▸ hf)
  obtain rfl := Except.ok.inj hfield
  exact Signature.canonical_of_parseType ht

theorem canonical_loadFunction {f : FunctionDecl} {r : Function}
    (h : loadFunction aliases d f = .ok r) : r.callable.Canonical := by
  simp only [loadFunction, bind_eq_ok_iff, locate_eq_ok_iff, mapM_eq_ok_iff] at h
  obtain ⟨typeParams, -, params, hparams, ret, hret, h⟩ := h
  obtain rfl := Except.ok.inj h
  refine ⟨fun t ht => ?_, Signature.canonical_of_parseType hret⟩
  obtain ⟨text, -, htext⟩ := exists_of_mem_forall₂ hparams ht
  exact Signature.canonical_of_parseType htext

theorem canonical_loadConstant {k : TypedName} {r : Constant}
    (h : loadConstant aliases d k = .ok r) : r.ty.Canonical := by
  simp only [loadConstant, bind_eq_ok_iff, locate_eq_ok_iff] at h
  obtain ⟨t, ht, h⟩ := h
  obtain rfl := Except.ok.inj h
  exact Signature.canonical_of_parseType ht

/-- Nothing is in the tables at the start. -/
theorem canonical_start (aliases : Aliases) : Canonical { empty with aliases } :=
  ⟨(nomatch ·), (nomatch ·), (nomatch ·)⟩

theorem Canonical.addModule (hc : c.Canonical) (h : addModule c d = .ok c') : c'.Canonical := by
  obtain ⟨-, structs, functions, constants, hstructs, hfunctions, hconstants, rfl⟩ :=
    addModule_cases h
  constructor
  · intro q r hr
    obtain ⟨s, hs, rfl⟩ | hr := Table.of_get?_foldl_insert hr
    · obtain ⟨decl, -, hdecl⟩ := exists_of_mem_forall₂ hstructs hs
      exact canonical_loadStruct hdecl
    · exact hc.structs hr
  · intro q f hf
    obtain ⟨g, hg, rfl⟩ | hf := Table.of_get?_foldl_insert hf
    · obtain ⟨decl, -, hdecl⟩ := exists_of_mem_forall₂ hfunctions hg
      exact canonical_loadFunction hdecl
    · exact hc.functions hf
  · intro q t ht
    obtain ⟨k, hk, rfl⟩ | ht := Table.of_get?_foldl_insert ht
    · obtain ⟨decl, -, hdecl⟩ := exists_of_mem_forall₂ hconstants hk
      exact canonical_loadConstant hdecl
    · exact hc.constants ht

theorem Canonical.foldlM {ds : List ModuleDecl} (hc : c.Canonical)
    (h : ds.foldlM Catalog.addModule c = .ok c') : c'.Canonical := by
  induction ds generalizing c with
  | nil => exact Except.ok.inj h ▸ hc
  | cons d ds ih =>
    obtain ⟨c₁, hd, h⟩ := bind_eq_ok_iff.1 h
    exact ih (hc.addModule hd) h

/-- A catalog that loads holds canonical types only. -/
theorem canonical_of_load {decl : Declaration} (h : load decl = .ok c) : c.Canonical := by
  obtain ⟨c₀, hmodules, h⟩ := bind_eq_ok_iff.1 h
  obtain rfl := Except.ok.inj h
  have hc₀ : c₀.Canonical := (canonical_start _).foldlM hmodules
  exact ⟨hc₀.structs, hc₀.functions, hc₀.constants⟩

end Catalog

end MoveTyping
