import MoveTyping.Tree.Build
import MoveTyping.Proofs.Infer.Run
import MoveTyping.Proofs.Ty.Canonical

/-!
# Struct literals and their fields

A struct literal gets its type arguments from its initialisers, and a field of a struct gets its
type from the type arguments. If the initialisers have the types of the fields under some arguments,
then the literal has these arguments, whatever the order of the initialisers. So a field of the
literal has the type of its initialiser again.

It is enough that each type parameter is mentioned in some field. Several fields may share one, and
an initialiser without a field is passed over.

## Main definitions

* `Record.Recoverable` — the type arguments of the struct can be read off its fields.
* `Record.Initialises` — the fields of a struct have initialisers of the types that some arguments
  give them.

## Main results

* `Record.literalType_of_initialises` — the type of a literal.
* `Inference.perform_fieldRule` — the type of a field.
-/

namespace MoveTyping

/-! ## Arguments by position -/

namespace Subst

variable {params : List String} {args : List Ty} {x : String} {t : Ty}

/-- Distinct parameters are bound to the arguments at their positions. -/
theorem get?_ofArgs_of_mem_zip (hparams : params.Nodup) (hlength : params.length ≤ args.length)
    (h : (x, t) ∈ params.zip args) : (ofArgs params args).get? x = some t := by
  have hkeys : ((params.zip args).map Prod.fst).Nodup := (List.map_fst_zip hlength).symm ▸ hparams
  have hne : (params.zip args).filter (·.1 = x) ≠ [] :=
    List.ne_nil_of_mem (List.mem_filter.2 ⟨h, by simp⟩)
  obtain ⟨hmem, hx⟩ := List.mem_filter.1 (List.getLast_mem hne)
  rw [get?_ofArgs, List.getLast?_eq_some_getLast hne,
    List.inj_on_of_nodup_map hkeys hmem h (by simpa using hx)]
  rfl

end Subst

/-! ## Records -/

namespace Record

variable {r : Record} {args : List Ty} {inits : List (String × Ty)} {f : Field} {σ : Subst}

/-- The struct has distinct type parameters and distinct fields, and each type parameter is
mentioned in a field. -/
structure Recoverable (r : Record) : Prop where
  generic : r.typeParams ≠ []
  params : r.paramNames.Nodup
  fields : (r.fields.map Field.name).Nodup
  mentions : ∀ x ∈ r.paramNames, ∃ f ∈ r.fields, x ∈ f.ty.vars

/-- Every field has an initialiser, and initialisers have the types of their fields. -/
structure Initialises (r : Record) (args : List Ty) (inits : List (String × Ty)) : Prop where
  every : ∀ f ∈ r.fields, f.name ∈ inits.map Prod.fst
  types : ∀ init ∈ inits, init.1 ∈ r.fields.map Field.name →
    r.fieldType? init.1 args = some init.2

theorem field?_of_mem (hfields : (r.fields.map Field.name).Nodup) (hf : f ∈ r.fields) :
    r.field? f.name = some f := by
  cases hfound : r.field? f.name with
  | none => simpa using List.find?_eq_none.1 hfound f hf
  | some f' =>
    have hname : f'.name = f.name := by simpa using List.find?_some hfound
    rw [List.inj_on_of_nodup_map hfields (List.mem_of_find?_eq_some hfound) hf hname]

/-- The variables in the declared types of the fields that are initialised. -/
def initVars (r : Record) (inits : List (String × Ty)) : List String :=
  inits.flatMap fun init => (r.field? init.1).elim [] (·.ty.vars)

theorem get?_bindField (hσ : σ.Known r.paramNames) {init : String × Ty}
    (hinit : ∀ f, r.field? init.1 = some f → init.2 = σ.replace f.ty) (s : Subst) (x : String) :
    (r.bindField s init).get? x =
      (s.get? x).or (σ.onParams r.paramNames ((r.field? init.1).elim [] (·.ty.vars)) x) := by
  unfold bindField
  cases hf : r.field? init.1 with
  | none => simp [Subst.onParams]
  | some f =>
    dsimp only
    rw [hinit f hf, Subst.get?_bindMatching_replace hσ]
    rfl

/-- Initialisers of the types of their fields bind the parameters that the fields mention. -/
theorem get?_foldl_bindField (hσ : σ.Known r.paramNames)
    (hinits : ∀ init ∈ inits, ∀ f, r.field? init.1 = some f → init.2 = σ.replace f.ty) (s : Subst)
    (x : String) :
    (inits.foldl r.bindField s).get? x =
      (s.get? x).or (σ.onParams r.paramNames (r.initVars inits) x) := by
  induction inits generalizing s with
  | nil => simp [initVars, Subst.onParams]
  | cons init inits ih =>
    obtain ⟨hinit, hinits⟩ := List.forall_mem_cons.1 hinits
    rw [List.foldl_cons, ih hinits, get?_bindField hσ hinit, Option.or_assoc,
      ← Subst.onParams_append]
    rfl

theorem fieldType?_eq (hgeneric : r.typeParams ≠ []) (hlength : args.length = r.typeParams.length)
    (name : String) : r.fieldType? name args =
      (r.field? name).map fun f => (Subst.ofArgs r.paramNames args).replace f.ty := by
  have hargs : args ≠ [] := by
    rintro rfl
    exact hgeneric (List.length_eq_zero_iff.1 hlength.symm)
  simp [fieldType?, hargs, hgeneric, Subst.apply_eq_replace]

/-- A struct over its own parameters, with arguments in their places. -/
theorem replace_declaredType (hr : r.Recoverable) (hlength : args.length = r.typeParams.length)
    {s : Subst} (hs : ∀ x ∈ r.paramNames, s.get? x = (Subst.ofArgs r.paramNames args).get? x) :
    s.replace r.declaredType = .generic r.name args := by
  have hnames : r.paramNames.length = r.typeParams.length := by simp [paramNames]
  have hmap : r.typeParams.map (fun p => s.replace (.var p.name p.bounds)) = args := by
    refine List.ext_getElem (by simp [hlength]) fun k hk hk' => ?_
    have hzip : (r.typeParams[k].name, args[k]) ∈ r.paramNames.zip args := by
      refine List.mem_iff_getElem.2 ⟨k, by simpa [hnames, hlength] using hk', ?_⟩
      simp [paramNames]
    have hmem := (List.of_mem_zip hzip).1
    have hget := Subst.get?_ofArgs_of_mem_zip hr.params (by omega) hzip
    simp [Subst.replace, hs _ hmem, hget]
  have hgeneric : r.declaredType =
      .generic r.name (r.typeParams.map fun p => .var p.name p.bounds) := by
    simp [declaredType, Ty.ofName, hr.generic]
  rw [hgeneric, Subst.replace, Subst.replaceList_eq_map, List.map_map]
  exact congrArg (Ty.generic r.name) hmap

/-- A literal whose initialisers have the types that some known arguments give to the fields has the
type of the struct with these arguments. -/
theorem literalType_of_initialises (hr : r.Recoverable)
    (hlength : args.length = r.typeParams.length) (hargs : ∀ t ∈ args, t ≠ .unknown)
    (hinits : r.Initialises args inits) :
    r.literalType [] inits = .generic r.name args := by
  have hσ : (Subst.ofArgs r.paramNames args).Known r.paramNames :=
    Subst.known_ofArgs (by simp [paramNames, hlength]) hargs
  have htypes : ∀ init ∈ inits, ∀ f, r.field? init.1 = some f →
      init.2 = (Subst.ofArgs r.paramNames args).replace f.ty := by
    intro init hinit f hf
    have hname : f.name = init.1 := by simpa using List.find?_some hf
    have ht := hinits.types init hinit
      (hname ▸ List.mem_map_of_mem (List.mem_of_find?_eq_some hf))
    rw [fieldType?_eq hr.generic hlength, hf] at ht
    exact (Option.some.inj ht).symm
  have hbound : ∀ x ∈ r.paramNames, (inits.foldl r.bindField ∅).get? x =
      (Subst.ofArgs r.paramNames args).get? x := by
    intro x hx
    obtain ⟨f, hf, hmentions⟩ := hr.mentions x hx
    obtain ⟨init, hinit, hname⟩ := List.mem_map.1 (hinits.every f hf)
    have hvar : x ∈ r.initVars inits := by
      refine List.mem_flatMap.2 ⟨init, hinit, ?_⟩
      rwa [hname, field?_of_mem hr.fields hf]
    rw [get?_foldl_bindField hσ htypes, Table.get?_empty, Option.none_or, Subst.onParams,
      if_pos ⟨hx, hvar⟩]
  rw [literalType, if_neg (by simp [hr.generic]), Subst.apply_eq_replace]
  exact replace_declaredType hr hlength hbound

end Record

/-! ## Rules -/

namespace Inference

variable {α : Type} {i : Inference} {e : Engine} {target base : NodeId} {fields typeArgs : Slice}
  {path : QName} {inits : List (String × Ty)} {r : Record} {args : List Ty}

theorem perform_reading (derived : α × List FileId) :
    (i.perform (Rule.reading derived) e).1 = derived.1 := by
  obtain ⟨a, files⟩ := derived
  rw [perform_eq]
  generalize i.inferWithin (i.depthLeft e) = infer
  induction files generalizing e with
  | nil => rfl
  | cons file files ih => exact ih

theorem perform_record? (q : QName) : (i.perform (Rule.record? q) e).1 = i.known? e q := by
  rw [perform_eq]
  exact i.lookup_fst q e.cache

theorem perform_packRule (hpath : i.env.program.kind? target = some (.path path typeArgs))
    (hexplicit : i.env.program.list target.file typeArgs = [])
    (hinits : (i.perform (i.env.initsRule (i.env.program.list target.file fields)) e).1 = inits)
    (htarget : (i.perform (i.env.targetRule target)
      (i.perform (i.env.initsRule (i.env.program.list target.file fields)) e).2).1 = some r) :
    (i.perform (i.env.packRule target fields) e).1 = r.literalType [] inits := by
  rw [Env.packRule, perform_bind, hinits, hpath]
  dsimp only
  rw [perform_bind, htarget]
  dsimp only
  rw [perform_bind, perform_reading, hexplicit]
  rfl

theorem perform_fieldRule (hbase : (i.perform (.typeOf base) e).1 = .generic r.name args)
    (hr : i.known? e r.name = some r) (field : String) :
    (i.perform (Env.fieldRule base field) e).1 = (r.fieldType? field args).getD .unknown := by
  rw [Env.fieldRule, perform_bind, hbase]
  change (i.perform (Rule.record? r.name >>= fun record =>
    pure ((record.bind (·.fieldType? field args)).getD .unknown)) _).1 = _
  rw [perform_bind, perform_record?, known?_perform, hr]
  rfl

/-- Let a literal without type arguments initialise every field of a recoverable struct, in any
order, with values of the types that the fields have under some known arguments. Then the literal
has the type of the struct with these arguments, and a field of any expression of that type has the
type of the initialiser of the field. -/
theorem project_of_pack (hpath : i.env.program.kind? target = some (.path path typeArgs))
    (hexplicit : i.env.program.list target.file typeArgs = [])
    (hinits : (i.perform (i.env.initsRule (i.env.program.list target.file fields)) e).1 = inits)
    (htarget : (i.perform (i.env.targetRule target)
      (i.perform (i.env.initsRule (i.env.program.list target.file fields)) e).2).1 = some r)
    (hr : r.Recoverable) (hlength : args.length = r.typeParams.length)
    (hargs : ∀ t ∈ args, t ≠ .unknown) (htypes : r.Initialises args inits) :
    let literal := (i.perform (i.env.packRule target fields) e).1
    literal = .generic r.name args ∧
      ∀ f ∈ r.fields, ∀ t, (f.name, t) ∈ inits →
        ∀ base e', (i.perform (.typeOf base) e').1 = literal → i.known? e' r.name = some r →
          (i.perform (Env.fieldRule base f.name) e').1 = t := by
  intro literal
  have hliteral : literal = .generic r.name args :=
    (perform_packRule hpath hexplicit hinits htarget).trans
      (Record.literalType_of_initialises hr hlength hargs htypes)
  refine ⟨hliteral, fun f hf t ht base e' hbase hknown => ?_⟩
  have htype := htypes.types (f.name, t) ht (List.mem_map_of_mem hf)
  rw [perform_fieldRule (hbase.trans hliteral) hknown, htype]
  rfl

/-- A literal of a struct with two type parameters, with its fields in another order, and a field of
it:

    struct Pair<A, B> { left: vector<A>, both: (B, A) }
    fun make(x: vector<u8>, y: (bool, u8)) { Pair { both: y, left: x }.both }
-/
def pairs : Tree := Build.tree 0 do
  let typeParams := [← Build.typeParam "A" [] false, ← Build.typeParam "B" [] false]
  let simple (name : String) : Build NodeId := Build.typePath (.simple name) []
  let vectorOf (name : String) : Build NodeId := do
    Build.typePath (.simple "vector") [← simple name]
  let left ← vectorOf "A"
  let both ← Build.typeTuple [← simple "B", ← simple "A"]
  let pair ← Build.struct "Pair" typeParams [] [("left", left), ("both", both)]
  let x ← Build.node (.param "x" (← vectorOf "u8"))
  let y ← Build.node (.param "y" (← Build.typeTuple [← simple "bool", ← simple "u8"]))
  let fields := [("both", ← Build.path (.simple "y") []), ("left", ← Build.path (.simple "x") [])]
  let literal ← Build.pack "Pair" fields
  let make ← Build.function "make" [] [x, y] none (← Build.node (.fieldAccess literal "both"))
  Build.module "0x5" "m" [pair, make]

def pairInference : Inference := ⟨.ofProgram (Program.empty.insert pairs) .empty, 1, .ofMax 8⟩

/-- The record of `Pair`. -/
def pairRecord : Record where
  name := .full "0x5" "m" "Pair"
  abilities := ∅
  typeParams := [⟨"A", ∅, false⟩, ⟨"B", ∅, false⟩]
  fields := [⟨"left", .vector (.var "A" ∅)⟩, ⟨"both", .tuple [.var "B" ∅, .var "A" ∅]⟩]
  isEnum := false
  supertypes := []

/-- The literal has the type `Pair<u8, bool>`, and its field `both` has the type of `y`. -/
theorem project_of_pack_pair :
    let i := pairInference
    let e : Engine := .ofCache (.ofSettings {})
    (i.perform (i.env.packRule ⟨0, 19⟩ ⟨10, 2⟩) e).1 =
        .generic (.full "0x5" "m" "Pair") [.prim .u8, .prim .bool] ∧
      (i.perform (Env.fieldRule ⟨0, 22⟩ "both") e).1 = .tuple [.prim .bool, .prim .u8] := by
  intro i e
  have hpath : i.env.program.kind? ⟨0, 19⟩ = some (.path (.simple "Pair") ⟨10, 0⟩) := by
    decide +kernel
  have hinits : (i.perform (i.env.initsRule (i.env.program.list 0 ⟨10, 2⟩)) e).1 =
      [("both", .tuple [.prim .bool, .prim .u8]), ("left", .vector (.prim .u8))] := by
    decide +kernel
  have htarget : (i.perform (i.env.targetRule ⟨0, 19⟩)
      (i.perform (i.env.initsRule (i.env.program.list 0 ⟨10, 2⟩)) e).2).1 = some pairRecord := by
    decide +kernel
  have hr : pairRecord.Recoverable := ⟨by decide, by decide, by decide, by decide⟩
  have htypes : pairRecord.Initialises [.prim .u8, .prim .bool]
      [("both", .tuple [.prim .bool, .prim .u8]), ("left", .vector (.prim .u8))] :=
    ⟨by decide, by decide +kernel⟩
  obtain ⟨hliteral, hproject⟩ :=
    project_of_pack hpath (by decide +kernel) hinits htarget hr rfl (by decide) htypes
  have hbase : (i.perform (.typeOf ⟨0, 22⟩) e).1 =
      (i.perform (i.env.packRule ⟨0, 19⟩ ⟨10, 2⟩) e).1 := by decide +kernel
  exact ⟨hliteral, hproject ⟨"both", .tuple [.var "B" ∅, .var "A" ∅]⟩ (by decide) _ (by decide)
    ⟨0, 22⟩ e hbase (by decide +kernel)⟩

end Inference

end MoveTyping
