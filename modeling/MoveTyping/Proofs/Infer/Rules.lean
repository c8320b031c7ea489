import MoveTyping.Infer.Node
import MoveTyping.Proofs.Infer.Local
import MoveTyping.Proofs.Infer.Replay

/-!
# Locality of the rules

The rules one by one: a node outside an edited file has after the edit a rule that repeats what its
rule gave before. The derivations of such nodes follow by induction on their height.

## Main results

* `Env.Edited.rule` — the rule of a node outside the file.
* `Env.Edited.derives` — the derivations that do not read the file.
-/

namespace MoveTyping.Env.Edited

open Replay

variable {w : Replay} {env env' : Env} {n target callee decl : NodeId} {kind : NodeKind}

/-! ## Names and calls -/

theorem contains_foreign (h : Edited w.file env env') (hn : n.file ≠ w.file)
    (hd : env.resolver.resolve n = some decl) (hfile : decl.file = w.file) :
    env.program.contains decl = true := by
  obtain ⟨kind, hk, -⟩ := h.foreign hn hd hfile
  exact Program.contains_of_kind? hk

theorem libraryValue (h : Edited w.file env env')
    (hname : env'.resolver.canonical n = env.resolver.canonical n) (explicit : List Ty) :
    env'.libraryValue n explicit = env.libraryValue n explicit := by
  rw [Env.libraryValue, hname, h.catalog]
  rfl

theorem genericNames (h : Edited w.file env env') (hn : n.file ≠ w.file) :
    env'.genericNames n = env.genericNames n := by
  unfold Env.genericNames
  rw [h.program.kind? hn]
  cases hk : env.program.kind? n with
  | none => rfl
  | some kind =>
    cases kind with
    | function name typeParams params ret body =>
      have htypes : env'.typeParams n.file typeParams = env.typeParams n.file typeParams :=
        h.typeParams hn fun c hc => h.closed.child hk (by simp [NodeKind.children, hc])
      simp only [htypes]
    | struct name typeParams abilities fields isEnum =>
      have htypes : env'.typeParams n.file typeParams = env.typeParams n.file typeParams :=
        h.typeParams hn fun c hc => h.closed.child hk (by simp [NodeKind.children, hc])
      simp only [htypes]
    | _ => rfl

/-- The explicit type arguments of a path. -/
theorem explicitArgs (h : Edited w.file env env') (hn : n.file ≠ w.file) {path : QName}
    {typeArgs : Slice} (hk : env.program.kind? n = some (.path path typeArgs)) :
    w.Repeats (.reading (env.denoteAll (env.program.list n.file typeArgs)))
      (.reading (env'.denoteAll (env'.program.list n.file typeArgs))) := by
  rw [h.program.list hn]
  exact repeats_reading (h.denoteAll fun c hc => h.child hn hk hc)

theorem pathRule (h : Edited w.file env env') (hw : w.Agrees env.program) (hn : n.file ≠ w.file)
    {path : QName} {typeArgs : Slice} (hk : env.program.kind? n = some (.path path typeArgs)) :
    w.Repeats (env.pathRule n typeArgs) (env'.pathRule n typeArgs) := by
  refine (h.explicitArgs hn hk).bind fun explicit => ?_
  rcases h.resolve_cases hn with ⟨d, hd, hfile⟩ | ⟨hresolve, hcanonical, hout⟩
  · rw [hd]
    exact hw.typeOf_file hfile (h.contains_foreign hn hd hfile)
  · rw [hresolve, h.libraryValue hcanonical]
    cases hd : env.resolver.resolve n with
    | none => exact w.repeats_done _
    | some d =>
      simp only [h.genericNames (hout d hd)]
      exact (hw.typeOf (hout d hd)).bind fun t => w.repeats_done _

theorem callableRule (h : Edited w.file env env') (hw : w.Agrees env.program)
    (hdecl : decl.file ≠ w.file) :
    w.Repeats (env.callableRule decl) (env'.callableRule decl) := by
  unfold Env.callableRule
  rw [h.program.kind? hdecl]
  split
  · exact w.repeats_done none
  · rcases h.signature? hdecl with ⟨callable, files, hsignature, hfile⟩ | hsame
    · rw [hsignature]
      exact repeats_reading_file hfile
    · rw [hsame]
      split
      · exact (repeats_reading fun _ => rfl).bind fun c => w.repeats_done (some c)
      · exact w.repeats_done none
  · refine (hw.typeOf hdecl).bind fun t => ?_
    split
    · exact w.repeats_done _
    · exact w.repeats_done none

theorem targetCallableRule (h : Edited w.file env env') (hw : w.Agrees env.program)
    (hn : n.file ≠ w.file) :
    w.Repeats (env.targetCallableRule n) (env'.targetCallableRule n) := by
  unfold Env.targetCallableRule
  rcases h.resolve_cases hn with ⟨d, hd, hfile⟩ | ⟨hresolve, hcanonical, hout⟩
  · rw [hd]
    exact repeats_read_file hfile
  · rw [hresolve, hcanonical, h.catalog]
    cases hd : env.resolver.resolve n with
    | none => exact w.repeats_done _
    | some d => exact (h.callableRule hw (hout d hd)).read d.file

theorem calleeRule (h : Edited w.file env env') (hw : w.Agrees env.program)
    (hn : n.file ≠ w.file) : w.Repeats (env.calleeRule n) (env'.calleeRule n) := by
  unfold Env.calleeRule
  rw [h.program.kind? hn]
  split
  · next hk =>
    refine (h.explicitArgs hn hk).bind fun explicit => ?_
    exact (h.targetCallableRule hw hn).bind fun c => w.repeats_done _
  · exact w.repeats_done none

theorem callRule (h : Edited w.file env env') (hw : w.Agrees env.program) (hn : n.file ≠ w.file)
    {args : Slice} (hk : env.program.kind? n = some (.call callee args)) :
    w.Repeats (env.callRule callee args) (env'.callRule callee args) := by
  have hcallee : callee.file = n.file := h.closed.child hk (by simp [NodeKind.children])
  have hargs : ∀ c ∈ env.program.list callee.file args, c.file ≠ w.file := by
    intro c hc
    rw [hcallee] at hc
    exact h.child hn hk (by simp [NodeKind.children, hc])
  unfold Env.callRule Env.argumentsRule
  rw [h.program.list (hcallee ▸ hn)]
  refine (hw.typesOf hargs).bind fun types => (h.calleeRule hw (hcallee ▸ hn)).bind fun c => ?_
  cases c with
  | none => exact w.repeats_done _
  | some c => exact w.repeats_done _

/-! ## Operators, vectors and tuples -/

theorem operand (h : Edited w.file env env') (hw : w.Agrees env.program) (hn : n.file ≠ w.file) :
    w.Repeats (env.operand n) (env'.operand n) := by
  have huntyped : env'.isUntyped n = env.isUntyped n := by
    unfold Env.isUntyped
    rw [h.program.kind? hn]
  unfold Env.operand
  rw [huntyped]
  exact (hw.typeOf hn).bind fun t => w.repeats_done _

theorem binaryRule (h : Edited w.file env env') (hw : w.Agrees env.program) {op : BinaryOp}
    {lhs rhs : NodeId} (hl : lhs.file ≠ w.file) (hr : rhs.file ≠ w.file) :
    w.Repeats (env.binaryRule op lhs rhs) (env'.binaryRule op lhs rhs) :=
  (h.operand hw hl).bind fun _ => (h.operand hw hr).bind fun _ => w.repeats_done _

theorem annotationAtUse? (h : Edited w.file env env') (hn : n.file ≠ w.file) :
    env'.annotationAtUse? n = env.annotationAtUse? n ∧
      ∀ ty, env.annotationAtUse? n = some ty → ty.file ≠ w.file := by
  unfold Env.annotationAtUse?
  rw [h.program.parent? hn]
  cases hm : env.program.parent? n with
  | none => exact ⟨rfl, fun ty hty => nomatch hty⟩
  | some m =>
    have hfile : m.file ≠ w.file := Program.file_of_parent? hm ▸ hn
    simp only [Option.bind_eq_bind, Option.bind_some, h.program.kind? hfile, true_and]
    intro ty hty
    obtain ⟨kind, hk, hty⟩ := Option.bind_eq_some_iff.1 hty
    split at hty
    · split at hty
      · cases hty
        exact h.child hfile hk (by simp [NodeKind.children])
      · cases hty
    · cases hty

theorem vectorRule (h : Edited w.file env env') (hw : w.Agrees env.program)
    (hn : n.file ≠ w.file) {elemTy : Option NodeId} {elems : Slice}
    (hk : env.program.kind? n = some (.vector elemTy elems)) :
    w.Repeats (env.vectorRule n elemTy elems) (env'.vectorRule n elemTy elems) := by
  have helems : ∀ c ∈ env.program.list n.file elems, c.file ≠ w.file := fun c hc =>
    h.child hn hk (by simp [NodeKind.children, hc])
  unfold Env.vectorRule
  rw [h.program.list hn]
  cases elemTy with
  | some ty =>
    have hty : ty.file ≠ w.file := h.child hn hk (by simp [NodeKind.children])
    refine (hw.typesOf helems).bind fun _ => ?_
    exact (repeats_reading (h.denote hty)).bind fun t => w.repeats_done _
  | none =>
    simp only
    split
    · obtain ⟨hsame, hfile⟩ := h.annotationAtUse? hn
      unfold Env.emptyVectorRule
      rw [hsame]
      cases hty : env.annotationAtUse? n with
      | none => exact w.repeats_done _
      | some ty =>
        exact (repeats_reading (h.denote (hfile ty hty))).bind fun t => w.repeats_done _
    · exact (repeats_mapM rfl fun c hc => h.operand hw (helems c hc)).bind fun ops =>
        w.repeats_done _

/-! ## Structs -/

theorem targetRule (h : Edited w.file env env') (hn : n.file ≠ w.file) :
    w.Repeats (env.targetRule n) (env'.targetRule n) := by
  unfold Env.targetRule
  rcases h.resolve_cases hn with ⟨d, hd, hfile⟩ | ⟨hresolve, hcanonical, hout⟩
  · rw [hd]
    exact repeats_read_file hfile
  · rw [hresolve, hcanonical, h.catalog]
    cases hd : env.resolver.resolve n with
    | none => exact w.repeats_done _
    | some d =>
      simp only [h.structs (hout d hd)]
      exact (w.repeats_done _).read d.file

theorem initsRule (h : Edited w.file env env') (hw : w.Agrees env.program)
    {nodes : List NodeId} (hnodes : ∀ c ∈ nodes, c.file ≠ w.file) :
    w.Repeats (env.initsRule nodes) (env'.initsRule nodes) := by
  refine repeats_mapM (List.filterMap_congr fun c hc => ?_) fun init hinit => ?_
  · rw [h.program.kind? (hnodes c hc)]
  · obtain ⟨c, hc, hinit⟩ := List.mem_filterMap.1 hinit
    split at hinit
    · next hk =>
      cases hinit
      have hvalue := h.child (hnodes c hc) hk List.mem_cons_self
      exact (hw.typeOf hvalue).bind fun t => w.repeats_done _
    · cases hinit

theorem packRule (h : Edited w.file env env') (hw : w.Agrees env.program) (hn : n.file ≠ w.file)
    {fields : Slice} (hk : env.program.kind? n = some (.pack target fields)) :
    w.Repeats (env.packRule target fields) (env'.packRule target fields) := by
  have htarget : target.file = n.file := h.closed.child hk (by simp [NodeKind.children])
  have hfields : ∀ c ∈ env.program.list target.file fields, c.file ≠ w.file := by
    intro c hc
    rw [htarget] at hc
    exact h.child hn hk (by simp [NodeKind.children, hc])
  have hfile : target.file ≠ w.file := htarget ▸ hn
  unfold Env.packRule
  rw [h.program.list hfile, h.program.kind? hfile]
  refine (h.initsRule hw hfields).bind fun inits => ?_
  split
  · next hpath =>
    refine (h.targetRule hfile).bind fun r => ?_
    cases r with
    | none => exact w.repeats_done _
    | some r =>
      refine Repeats.bind ?_ fun explicit => w.repeats_done _
      exact repeats_reading (h.denoteAll fun c hc => h.child hfile hpath hc)
  · exact w.repeats_done _

theorem fieldRule (hw : w.Agrees env.program) (hn : n.file ≠ w.file) (field : String) :
    w.Repeats (Env.fieldRule n field) (Env.fieldRule n field) := by
  refine (hw.typeOf hn).bind fun t => ?_
  split
  · exact (w.repeats_record? _).bind fun r => w.repeats_done _
  · exact w.repeats_done _

/-! ## Blocks and branches -/

theorem tailExpr? (h : Edited w.file env env') (hn : n.file ≠ w.file) :
    env'.tailExpr? n = env.tailExpr? n ∧
      ∀ expr, env.tailExpr? n = some expr → expr.file ≠ w.file := by
  unfold Env.tailExpr?
  rw [h.program.kind? hn]
  refine ⟨rfl, fun expr hexpr => ?_⟩
  split at hexpr
  · next hk =>
    cases hexpr
    exact h.child hn hk (by simp [NodeKind.children])
  · split at hexpr <;> cases hexpr
    exact hn
  · cases hexpr

theorem blockRule (h : Edited w.file env env') (hw : w.Agrees env.program)
    (hn : n.file ≠ w.file) {stmts : Slice} (hk : env.program.kind? n = some (.block stmts)) :
    w.Repeats (env.blockRule n stmts) (env'.blockRule n stmts) := by
  unfold Env.blockRule
  rw [h.program.list hn]
  cases hlast : (env.program.list n.file stmts).getLast? with
  | none => exact w.repeats_done _
  | some stmt =>
    have hstmt : stmt.file ≠ w.file := h.child hn hk (List.mem_of_getLast? hlast)
    obtain ⟨hsame, hfile⟩ := h.tailExpr? hstmt
    simp only [Option.bind_some, hsame]
    cases hexpr : env.tailExpr? stmt with
    | none => exact w.repeats_done _
    | some expr => exact hw.typeOf (hfile expr hexpr)

theorem divergesWithin (h : Edited w.file env env') (depth : Nat) (hn : n.file ≠ w.file) :
    env'.divergesWithin depth n = env.divergesWithin depth n := by
  induction depth generalizing n with
  | zero => rfl
  | succ depth ih =>
    rw [Env.divergesWithin, Env.divergesWithin, h.program.kind? hn, h.program.list hn]
    cases hk : env.program.kind? n with
    | none => rfl
    | some kind =>
      cases kind with
      | block stmts =>
        cases hlast : (env.program.list n.file stmts).getLast? with
        | none => simp only [hlast, Option.any_none]
        | some stmt =>
          simp only [hlast, Option.any_some, ih (h.child hn hk (List.mem_of_getLast? hlast))]
      | exprStmt expr terminated =>
        simp only [ih (h.child hn hk (c := expr) (by simp [NodeKind.children]))]
      | ifElse cond thenBranch elseBranch =>
        cases elseBranch with
        | none => rfl
        | some elseBranch =>
          simp only [ih (h.child hn hk (c := thenBranch) (by simp [NodeKind.children])),
            ih (h.child hn hk (c := elseBranch) (by simp [NodeKind.children]))]
      | _ => rfl

theorem ifRule (h : Edited w.file env env') (hw : w.Agrees env.program) {thenBranch : NodeId}
    {elseBranch : Option NodeId} (hthen : thenBranch.file ≠ w.file)
    (helse : ∀ c ∈ elseBranch, c.file ≠ w.file) :
    w.Repeats (env.ifRule thenBranch elseBranch) (env'.ifRule thenBranch elseBranch) := by
  have helseRule : w.Repeats (elseRule elseBranch) (elseRule elseBranch) := by
    cases elseBranch with
    | none => exact w.repeats_done _
    | some c => exact hw.typeOf (helse c rfl)
  have hdiverges : env'.diverges thenBranch = env.diverges thenBranch :=
    h.divergesWithin _ hthen
  have hdiverges' : elseBranch.any env'.diverges = elseBranch.any env.diverges := by
    cases elseBranch with
    | none => simp only [Option.any_none]
    | some c =>
      simp only [Option.any_some]
      exact h.divergesWithin _ (helse c rfl)
  unfold Env.ifRule
  rw [hdiverges, hdiverges']
  split
  · exact w.repeats_done _
  · exact helseRule
  · exact hw.typeOf hthen
  · exact (hw.typeOf hthen).bind fun t => helseRule.bind fun t' => w.repeats_done _

/-! ## Bindings -/

theorem siteWithin? (h : Edited w.file env env') (fuel : Nat) (hn : n.file ≠ w.file)
    (inner : List Nat) : env'.siteWithin? fuel n inner = env.siteWithin? fuel n inner ∧
      ∀ site, env.siteWithin? fuel n inner = some site →
        (∀ ty ∈ site.ty, ty.file ≠ w.file) ∧ ∀ init ∈ site.init, init.file ≠ w.file := by
  induction fuel generalizing n inner with
  | zero => exact ⟨rfl, by simp [Env.siteWithin?]⟩
  | succ fuel ih =>
    rw [Env.siteWithin?, Env.siteWithin?, h.program.parent? hn]
    cases hm : env.program.parent? n with
    | none => exact ⟨rfl, by simp⟩
    | some m =>
      have hfile : m.file ≠ w.file := Program.file_of_parent? hm ▸ hn
      simp only [Option.bind_eq_bind, Option.bind_some, h.program.kind? hfile,
        h.program.list hfile]
      cases hk : env.program.kind? m with
      | none => exact ⟨rfl, by simp⟩
      | some kind =>
        cases kind with
        | bindTuple elems =>
          simp only [Option.bind_some]
          cases hplace : (env.program.list m.file elems).idxOf? n with
          | none => exact ⟨rfl, by simp⟩
          | some place => exact ih hfile (place :: inner)
        | letStmt pattern ty init =>
          refine ⟨rfl, fun site hsite => ?_⟩
          simp only [Option.bind_some] at hsite
          split at hsite <;> cases hsite
          exact ⟨fun c hc => h.child hfile hk (by simp_all [NodeKind.children]),
            fun c hc => h.child hfile hk (by simp_all [NodeKind.children])⟩
        | _ => exact ⟨rfl, by simp⟩

theorem annotatedRule (h : Edited w.file env env') (hw : w.Agrees env.program)
    {ty init : Option NodeId} (hty : ∀ c ∈ ty, c.file ≠ w.file)
    (hinit : ∀ c ∈ init, c.file ≠ w.file) :
    w.Repeats (env.annotatedRule ty init) (env'.annotatedRule ty init) := by
  cases ty with
  | some ty => exact repeats_reading (h.denote (hty ty rfl))
  | none =>
    cases init with
    | some init => exact hw.typeOf (hinit init rfl)
    | none => exact w.repeats_done _

theorem bindingRule (h : Edited w.file env env') (hw : w.Agrees env.program)
    (hn : n.file ≠ w.file) : w.Repeats (env.bindingRule n) (env'.bindingRule n) := by
  unfold Env.bindingRule Env.bindingSite?
  rw [h.program n.file hn]
  cases env.program.tree? n.file with
  | none => exact w.repeats_done _
  | some t =>
    obtain ⟨hsame, hsite⟩ := h.siteWithin? (t.size + 1) hn []
    simp only [Option.bind_eq_bind, Option.bind_some, hsame]
    cases hs : env.siteWithin? (t.size + 1) n [] with
    | none => exact w.repeats_done _
    | some site =>
      obtain ⟨hty, hinit⟩ := hsite site hs
      exact (h.annotatedRule hw hty hinit).bind fun t => w.repeats_done _

/-! ## Nodes -/

theorem kindRule (h : Edited w.file env env') (hw : w.Agrees env.program) (hn : n.file ≠ w.file)
    (hk : env.program.kind? n = some kind) :
    w.Repeats (env.kindRule n kind) (env'.kindRule n kind) := by
  have hchild : ∀ c, c ∈ kind.children (env.program.list n.file) → c.file ≠ w.file :=
    fun c hc => h.child hn hk hc
  cases kind with
  | path path typeArgs => exact (h.pathRule hw hn hk).map some
  | call callee args => exact (h.callRule hw hn hk).map some
  | binary op lhs rhs =>
    exact (h.binaryRule hw (hchild lhs (by simp [NodeKind.children]))
      (hchild rhs (by simp [NodeKind.children]))).map some
  | unary op operand =>
    have htype := hw.typeOf (hchild operand (by simp [NodeKind.children]))
    exact (htype.bind fun t => w.repeats_done (op.type t)).map some
  | pack target fields => exact (h.packRule hw hn hk).map some
  | fieldInit name value => exact (hw.typeOf (hchild value (by simp [NodeKind.children]))).map some
  | vector elemTy elems => exact (h.vectorRule hw hn hk).map some
  | tuple elems =>
    have htypes := hw.typesOf fun c hc => hchild c hc
    refine Repeats.map ?_ some
    unfold Env.tupleRule
    rw [h.program.list hn]
    exact htypes.bind fun ts => w.repeats_done _
  | index base position =>
    have htype := hw.typeOf (hchild base (by simp [NodeKind.children]))
    exact (htype.bind fun t => w.repeats_done (t.element?.getD .unknown)).map some
  | block stmts => exact (h.blockRule hw hn hk).map some
  | ifElse cond thenBranch elseBranch =>
    refine Repeats.map (h.ifRule hw ?_ ?_) some
    · exact hchild thenBranch (by simp [NodeKind.children])
    · exact fun c hc => hchild c (by simp_all [NodeKind.children])
  | cast expr ty =>
    exact (repeats_reading (h.denote (hchild ty (by simp [NodeKind.children])))).map some
  | fieldAccess base field =>
    exact (fieldRule hw (hchild base (by simp [NodeKind.children])) field).map some
  | function name typeParams params ret body =>
    simp only [Env.kindRule]
    rcases h.signature? hn with ⟨callable, files, hsignature, hfile⟩ | hsame
    · rw [hsignature]
      exact repeats_reading_file hfile
    · rw [hsame]
      split
      · exact (repeats_reading fun _ => rfl).map some
      · exact w.repeats_done _
  | struct name typeParams abilities fields isEnum =>
    simp only [Env.kindRule, h.structs hn]
    exact w.repeats_done _
  | const name ty value =>
    refine Repeats.map (h.annotatedRule hw ?_ ?_) some
    · exact fun c hc => hchild c (by simp_all [NodeKind.children])
    · exact fun c hc => hchild c (by simp_all [NodeKind.children])
  | param name ty => exact (repeats_reading (h.paramType hn)).map some
  | typeParam name bounds phantom =>
    simp only [Env.kindRule, h.abilities hn fun c hc => hchild c hc]
    exact w.repeats_done _
  | fieldDecl name ty =>
    exact (repeats_reading (h.denote (hchild ty (by simp [NodeKind.children])))).map some
  | bindName name => exact (h.bindingRule hw hn).map some
  | typePath path args => exact (repeats_reading (h.denote hn)).map some
  | typeRef mutable inner => exact (repeats_reading (h.denote hn)).map some
  | typeTuple elems => exact (repeats_reading (h.denote hn)).map some
  | _ => exact w.repeats_done _

/-- After the edit the rule of a node outside the file repeats what it gave before. -/
theorem rule (h : Edited w.file env env') (hw : w.Agrees env.program) (hn : n.file ≠ w.file) :
    w.Repeats (env.rule n) (env'.rule n) := by
  unfold Env.rule
  rw [h.program.kind? hn]
  split
  · next hk => exact h.kindRule hw hn hk
  · exact w.repeats_done _

/-! ## Derivations -/

variable {f : FileId} {record record' : QName → Option Record} {t : Option Ty} {u : Trace}

theorem mem_files_of_derive? {height : Nat} (hcontains : env.program.contains n = true)
    (hd : env.derive? record height n = some (t, u)) : n.file ∈ u.files := by
  obtain ⟨v, -, rfl⟩ := (derives_iff hcontains).1 ⟨height, hd⟩
  exact Finset.mem_insert_self _ _

theorem derive? (h : Edited f env env') {height : Nat} (hn : n.file ≠ f)
    (hd : env.derive? record height n = some (t, u)) (hu : u.Clear f record record') :
    env'.derive? record' height n = some (t, u) := by
  induction height using Nat.strongRecOn generalizing n t u with
  | _ height ih =>
    cases hc : env.program.contains n with
    | false =>
      rw [derive?_of_not_contains hc] at hd
      rw [derive?_of_not_contains ((h.program.contains hn).trans hc), hd]
    | true =>
      cases height with
      | zero => simp [derive?_zero hc] at hd
      | succ height =>
        obtain ⟨v, hv, rfl⟩ := (derive?_succ_eq_some hc).1 hd
        let w : Replay :=
          ⟨f, env.derive? record height, env'.derive? record' height, record, record'⟩
        have hw : w.Agrees env.program :=
          ⟨fun hm hd hu => ih height (Nat.lt_succ_self _) hm hd hu,
            fun hm hc hd => hm ▸ mem_files_of_derive? hc hd⟩
        have hrule : w.Repeats (env.rule n) (env'.rule n) := rule h hw hn
        refine (derive?_succ_eq_some ((h.program.contains hn).trans hc)).2 ⟨v, ?_, rfl⟩
        exact hrule t v hv (Trace.clear_addNode.1 hu).2

/-- A derivation that does not read the file, and asks for no record that changes, is one after the
edit as well. -/
theorem derives (h : Edited f env env') (hn : n.file ≠ f) (hd : env.Derives record n t u)
    (hu : u.Clear f record record') : env'.Derives record' n t u := by
  obtain ⟨height, hd⟩ := hd
  exact ⟨height, h.derive? hn hd hu⟩

end MoveTyping.Env.Edited
