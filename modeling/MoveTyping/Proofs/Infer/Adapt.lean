import Mathlib.Data.List.Forall2
import MoveTyping.Tree.Build
import MoveTyping.Proofs.Infer.Run
import MoveTyping.Proofs.Literal

/-!
# Literals that adapt

An operator and a vector may use an operand at another type than its own. They do so only with
decimal integers without a suffix, and only at integer types. The type that they give is that of
operands which have the types at which they are used.

## Main definitions

* `Operand.UsedAt` — an operand that is used at a type.
* `BinaryOp.operandTypes` — the types at which an operator uses its operands.
* `Env.IsBareInteger` — a decimal integer without a suffix.
-/

namespace MoveTyping

/-! ## Operands -/

namespace Operand

variable {ops : List Operand} {t : Ty}

/-- An operand that keeps its type. -/
def typed (t : Ty) : Operand := ⟨t, false⟩

/-- The operand may be used at `t`. -/
def UsedAt (o : Operand) (t : Ty) : Prop := t = o.ty ∨ o.untyped = true ∧ t.isInteger = true

theorem usedAt_ty (o : Operand) : o.UsedAt o.ty := .inl rfl

theorem usedAt_adapt (l r : Operand) : l.UsedAt (l.adapt r).1 ∧ r.UsedAt (l.adapt r).2 := by
  unfold adapt UsedAt
  grind

theorem isInteger_of_adopted? (h : adopted? ops = some t) : t.isInteger = true := by
  obtain ⟨o, ho, rfl⟩ := Option.map_eq_some_iff.1 h
  have := List.find?_some ho
  grind

theorem forall₂_usedAt_map {f : Operand → Ty} (h : ∀ o : Operand, o.UsedAt (f o)) :
    List.Forall₂ UsedAt ops (ops.map f) :=
  List.forall₂_map_right_iff.2 (List.forall₂_same.2 fun o _ => h o)

theorem usedAt_adaptAll (ops : List Operand) : List.Forall₂ UsedAt ops (adaptAll ops) := by
  unfold adaptAll
  cases hadopted : adopted? ops with
  | some t =>
    have ht := isInteger_of_adopted? hadopted
    refine forall₂_usedAt_map fun o => ?_
    unfold UsedAt
    grind
  | none => exact forall₂_usedAt_map usedAt_ty

end Operand

namespace BinaryOp

/-- The types at which an operator uses its operands. -/
def operandTypes (op : BinaryOp) (l r : Operand) : Ty × Ty :=
  match op.family with
  | .arithmetic | .bitwise => l.adapt r
  | .comparison | .logical => (l.ty, r.ty)
  | .shift => (l.ty, if r.untyped then .prim .u8 else r.ty)

theorem usedAt_operandTypes (op : BinaryOp) (l r : Operand) :
    l.UsedAt (op.operandTypes l r).1 ∧ r.UsedAt (op.operandTypes l r).2 := by
  unfold operandTypes
  cases op.family with
  | arithmetic | bitwise => exact l.usedAt_adapt r
  | comparison | logical => exact ⟨l.usedAt_ty, r.usedAt_ty⟩
  | shift =>
    refine ⟨l.usedAt_ty, ?_⟩
    cases hr : r.untyped with
    | true => exact .inr ⟨hr, rfl⟩
    | false => exact r.usedAt_ty

theorem type_eq_typed (op : BinaryOp) (l r : Operand) :
    op.type l r = op.type (.typed (op.operandTypes l r).1) (.typed (op.operandTypes l r).2) := by
  unfold type operandTypes
  cases op.family with
  | arithmetic | bitwise => rfl
  | comparison | logical => rfl
  | shift =>
    simp only [Operand.typed]
    grind

end BinaryOp

/-! ## Nodes -/

namespace Env

variable {env : Env} {node : NodeId}

/-- The node is an integer literal of decimal digits, without a suffix. -/
def IsBareInteger (env : Env) (node : NodeId) : Prop :=
  ∃ text, env.program.kind? node = some (.literal text) ∧ Literal.Decimal text.toList

/-- The nodes with their `own` types are used at the types `used`. Those of decimal integers may be
other integer types. -/
def UsedAt (env : Env) (nodes : List NodeId) (own used : List Ty) : Prop :=
  List.Forall₂ (fun operand t => t = operand.2 ∨ env.IsBareInteger operand.1 ∧ t.isInteger = true)
    (nodes.zip own) used

theorem isUntyped_iff : env.isUntyped node = true ↔ env.IsBareInteger node := by
  unfold isUntyped IsBareInteger
  split
  next text hkind => simp [hkind, Literal.isUnsuffixed_iff_decimal]
  next hkind =>
    simp only [Bool.false_eq_true, false_iff]
    rintro ⟨text, htext, -⟩
    exact hkind text htext

/-- A decimal integer is a `u64` on its own. -/
theorem IsBareInteger.rule_eq (h : env.IsBareInteger node) :
    env.rule node = return some (.prim .u64) := by
  obtain ⟨text, hkind, htext⟩ := h
  rw [rule, hkind]
  exact congrArg (fun t => Rule.done (some t)) (Literal.type_of_decimal htext)

/-- The operands that nodes are. -/
def operands (env : Env) (nodes : List NodeId) (own : List Ty) : List Operand :=
  (nodes.zip own).map fun operand => ⟨operand.2, env.isUntyped operand.1⟩

theorem usedAt_iff {nodes : List NodeId} {own used : List Ty} :
    env.UsedAt nodes own used ↔ List.Forall₂ Operand.UsedAt (env.operands nodes own) used := by
  simp [UsedAt, operands, Operand.UsedAt, isUntyped_iff, List.forall₂_map_left_iff]

end Env

/-! ## Runs -/

namespace Inference

variable {i : Inference} {e : Engine}

/-- Nodes are asked for as operands in the way they are asked for their types. -/
theorem perform_mapM_operand (nodes : List NodeId) :
    i.perform (nodes.mapM i.env.operand) e =
      (i.env.operands nodes (i.perform (Rule.typesOf nodes) e).1,
        (i.perform (Rule.typesOf nodes) e).2) := by
  have hoperand (node : NodeId) (e : Engine) : i.perform (i.env.operand node) e =
      (⟨(i.perform (.typeOf node) e).1, i.env.isUntyped node⟩, (i.perform (.typeOf node) e).2) :=
    perform_bind ..
  induction nodes generalizing e with
  | nil => rfl
  | cons node nodes ih =>
    simp only [Rule.typesOf, List.mapM_cons] at ih ⊢
    rw [perform_bind, perform_bind, perform_bind, perform_bind, hoperand, ih]
    rfl

theorem perform_binaryRule (op : BinaryOp) (lhs rhs : NodeId) :
    ∃ l r, (i.perform ([lhs, rhs].mapM i.env.operand) e).1 = [l, r] ∧
      (i.perform (i.env.binaryRule op lhs rhs) e).1 = op.type l r := by
  simp only [Env.binaryRule, List.mapM_cons, List.mapM_nil, perform_bind]
  exact ⟨_, _, rfl, rfl⟩

theorem perform_vectorRule {node : NodeId} {elems : Slice}
    (h : i.env.program.list node.file elems ≠ []) :
    (i.perform (i.env.vectorRule node none elems) e).1 = Operand.vectorType
      (i.perform ((i.env.program.list node.file elems).mapM i.env.operand) e).1 := by
  simp only [Env.vectorRule, List.isEmpty_iff, if_neg h, perform_bind]
  rfl

/-- Adaptation agrees with the types of literals. A literal adapts if it is a `u64` without being
written so. Operators and vectors re-type such decimal integers only, and each is a `u64` on its
own. -/
theorem adapts_only_bareIntegers (i : Inference) (e : Engine) :
    (∀ text, Literal.isUnsuffixed text = true ↔
      Literal.type text = .prim .u64 ∧ ¬"u64".toList <:+ text.toList) ∧
    (∀ node, i.env.IsBareInteger node → i.env.rule node = return some (.prim .u64)) ∧
    (∀ op lhs rhs, ∃ l r,
      i.env.UsedAt [lhs, rhs] (i.perform (Rule.typesOf [lhs, rhs]) e).1 [l, r] ∧
      (i.perform (i.env.binaryRule op lhs rhs) e).1 = op.type (.typed l) (.typed r)) ∧
    ∀ node elems, i.env.program.list node.file elems ≠ [] → ∃ used,
      i.env.UsedAt (i.env.program.list node.file elems)
        (i.perform (Rule.typesOf (i.env.program.list node.file elems)) e).1 used ∧
      (i.perform (i.env.vectorRule node none elems) e).1 =
        ((Ty.unifyAll? used).map Ty.vector).getD .unknown := by
  refine ⟨Literal.isUnsuffixed_iff_type, fun _ => Env.IsBareInteger.rule_eq, ?_, ?_⟩
  · intro op lhs rhs
    obtain ⟨l, r, hoperands, hrule⟩ := i.perform_binaryRule (e := e) op lhs rhs
    simp only [perform_mapM_operand] at hoperands
    obtain ⟨hl, hr⟩ := op.usedAt_operandTypes l r
    refine ⟨_, _, Env.usedAt_iff.2 ?_, hrule.trans (op.type_eq_typed l r)⟩
    rw [hoperands]
    exact .cons hl (.cons hr .nil)
  · intro node elems helems
    refine ⟨_, Env.usedAt_iff.2 (Operand.usedAt_adaptAll _), ?_⟩
    rw [perform_vectorRule helems, perform_mapM_operand]
    rfl

/-- A literal beside one of another integer type: `vector[7, 2u16]`. -/
def mixedVector : Tree := Build.tree 0 do
  Build.vector none [← Build.node (.literal "7"), ← Build.node (.literal "2u16")]

/-- The literal `7` is a `u64` on its own and an element of a `vector<u16>`. -/
theorem adapts_only_bareIntegers_mixed :
    let i : Inference := ⟨.ofProgram (Program.empty.insert mixedVector) .empty, 1, .ofMax 8⟩
    (i.env.rule ⟨0, 0⟩ = return some (.prim .u64)) ∧
      ∃ used, i.env.UsedAt [⟨0, 0⟩, ⟨0, 1⟩] [.prim .u64, .prim .u16] used ∧
        ((Ty.unifyAll? used).map Ty.vector).getD .unknown = .vector (.prim .u16) := by
  intro i
  let e : Engine := .ofCache (.ofSettings {})
  have hbare : i.env.IsBareInteger ⟨0, 0⟩ := Env.isUntyped_iff.1 (by decide +kernel)
  have helems : i.env.program.list 0 ⟨0, 2⟩ = [⟨0, 0⟩, ⟨0, 1⟩] := by decide +kernel
  have hown : (i.perform (Rule.typesOf [⟨0, 0⟩, ⟨0, 1⟩]) e).1 = [.prim .u64, .prim .u16] := by
    decide +kernel
  have hvector : (i.perform (i.env.vectorRule ⟨0, 2⟩ none ⟨0, 2⟩) e).1 =
      .vector (.prim .u16) := by
    decide +kernel
  obtain ⟨-, hrule, -, hused⟩ := adapts_only_bareIntegers i e
  obtain ⟨used, hat, htype⟩ := hused ⟨0, 2⟩ ⟨0, 2⟩ (by simp [helems])
  rw [helems, hown] at hat
  exact ⟨hrule _ hbare, used, hat, htype.symm.trans hvector⟩

end Inference

end MoveTyping
