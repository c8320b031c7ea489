import MoveTyping.Proofs.Infer.Run

/-!
# Abilities in an engine

A question about abilities asks an engine for records and for nothing else, so its answer is that
of the records which the engine comes to know: the indexed ones, and those that are found where a
name is not indexed. Of a record the fields do not matter.

## Main definitions

* `Rule.Consults` — the value of a rule that asks for records only.
* `Record.shape` — a record without its fields.
* `Ty.names` — the names in a type.
-/

namespace MoveTyping

variable {α β : Type} {known known' : QName → Option Record}

/-! ## Rules that ask for records -/

namespace Rule

/-- Over an index in which the names have the given records, the rule has a value, and the names
still have them afterwards. -/
def Consults (known : QName → Option Record) (rule : Rule α) (a : α) : Prop :=
  ∀ (i : Inference) (infer : NodeId → Engine → Option Ty × Engine) (e : Engine),
    (∀ q, (e.cache.record? q).or (i.env.found? q) = known q) →
    (i.performWith infer rule e).1 = a ∧
      ∀ q, ((i.performWith infer rule e).2.cache.record? q).or (i.env.found? q) = known q

theorem consults_pure (a : α) : Consults known (pure a) a := fun _ _ _ h => ⟨rfl, h⟩

theorem Consults.bind {rule : Rule α} {next : α → Rule β} {a : α} {b : β}
    (h : rule.Consults known a) (hnext : (next a).Consults known b) :
    (rule >>= next).Consults known b := by
  intro i infer e he
  obtain ⟨ha, he⟩ := h i infer e he
  have hbind := @Inference.performWith_bind α i e infer β rule next
  rw [ha] at hbind
  change (i.performWith infer (rule.bind next) e).1 = b ∧
    ∀ q, ((i.performWith infer (rule.bind next) e).2.cache.record? q).or _ = known q
  rw [hbind]
  exact hnext i infer _ he

theorem consults_record? (q : QName) : (record? q).Consults known (known q) := by
  intro i infer e he
  have hframe := (i.frame_ask q e).cache.mono Env.found?_of_ownRecord?
  exact ⟨(i.lookup_fst q e.cache).trans (he q), fun q' => (hframe.records q').trans (he q')⟩

end Rule

/-- An engine gives the value of a rule that asks for records only. -/
theorem Inference.perform_of_consults {i : Inference} {e : Engine} {rule : Rule α} {a : α}
    (h : rule.Consults (i.known? e) a) : (i.perform rule e).1 = a := by
  rw [perform_eq]
  exact (h i _ e fun _ => rfl).1

/-! ## Abilities by records -/

namespace Ty

/-- What all of the types have, over a fixed set of records. -/
def commonAbilities (known : QName → Option Record) (ts : List Ty) : AbilitySet :=
  Id.run (abilitiesM.common (fun q => pure (known q)) ts)

/-- The sets of the arguments of a struct, over a fixed set of records. -/
def argAbilities (known : QName → Option Record) (info : Record) (index : Nat) (ts : List Ty) :
    List AbilitySet :=
  Id.run (abilitiesM.ofArgs (fun q => pure (known q)) info index ts)

theorem abilities_generic (known : QName → Option Record) (base : QName) (args : List Ty) :
    (generic base args).abilities known =
      if base = .vector then .primitive ∩ commonAbilities known args
      else (known base).elim ∅ fun info =>
        info.abilities.filter fun a =>
          (argAbilities known info 0 args).all (·.has a.ofArguments) := by
  unfold abilities
  rw [abilitiesM]
  split
  · rfl
  · -- without effects the answer to the look-up is at hand
    simp only [pure_bind]
    cases known base <;> rfl

theorem commonAbilities_cons (known : QName → Option Record) (t : Ty) (ts : List Ty) :
    commonAbilities known (t :: ts) = t.abilities known ∩ commonAbilities known ts := rfl

theorem argAbilities_cons (known : QName → Option Record) (info : Record) (index : Nat) (t : Ty)
    (ts : List Ty) :
    argAbilities known info index (t :: ts) =
      if info.isPhantom index then argAbilities known info (index + 1) ts
      else t.abilities known :: argAbilities known info (index + 1) ts := by
  unfold argAbilities
  rw [abilitiesM.ofArgs]
  split <;> rfl

mutual

theorem consults_abilitiesM : ∀ t : Ty,
    (t.abilitiesM Rule.record?).Consults known (t.abilities known)
  | prim _ => Rule.consults_pure _
  | named q => (Rule.consults_record? q).bind (Rule.consults_pure _)
  | generic base args => by
    rw [abilitiesM, abilities_generic]
    split
    · exact (consults_common args).bind (Rule.consults_pure _)
    · refine (Rule.consults_record? base).bind ?_
      cases known base with
      | none => exact Rule.consults_pure _
      | some info => exact (consults_ofArgs info 0 args).bind (Rule.consults_pure _)
  | ref _ _ => Rule.consults_pure _
  | tuple elems => consults_common elems
  | var _ _ => Rule.consults_pure _
  | func _ _ => Rule.consults_pure _
  | unknown => Rule.consults_pure _

theorem consults_common : ∀ ts : List Ty,
    (abilitiesM.common Rule.record? ts).Consults known (commonAbilities known ts)
  | [] => Rule.consults_pure _
  | t :: ts =>
    (consults_abilitiesM t).bind ((consults_common ts).bind (Rule.consults_pure _))

theorem consults_ofArgs (info : Record) : ∀ (index : Nat) (ts : List Ty),
    (abilitiesM.ofArgs Rule.record? info index ts).Consults known
      (argAbilities known info index ts)
  | _, [] => Rule.consults_pure _
  | index, t :: ts => by
    rw [abilitiesM.ofArgs, argAbilities_cons]
    split
    · exact consults_ofArgs info (index + 1) ts
    · exact (consults_abilitiesM t).bind
        ((consults_ofArgs info (index + 1) ts).bind (Rule.consults_pure _))

end

/-- The names in a type. -/
def names : Ty → List QName
  | named q => [q]
  | generic base args => base :: namesOf args
  | ref inner _ => inner.names
  | tuple elems => namesOf elems
  | func params ret => namesOf params ++ ret.names
  | prim _ | var _ _ | unknown => []
where
  namesOf : List Ty → List QName
    | [] => []
    | t :: ts => t.names ++ namesOf ts

end Ty

/-! ## Shapes of records -/

/-- A record without its fields. -/
def Record.shape (r : Record) : Record := { r with fields := [] }

theorem Record.abilities_of_shape {r r' : Record} (h : r.shape = r'.shape) :
    r.abilities = r'.abilities :=
  have habilities : ∀ r : Record, r.abilities = r.shape.abilities := fun _ => rfl
  (habilities r).trans (h ▸ (habilities r').symm)

theorem Record.isPhantom_of_shape {r r' : Record} (h : r.shape = r'.shape) (index : Nat) :
    r.isPhantom index = r'.isPhantom index :=
  have hphantom : ∀ r : Record, r.isPhantom index = r.shape.isPhantom index := fun _ => rfl
  (hphantom r).trans (h ▸ (hphantom r').symm)

namespace Ty

mutual

/-- The abilities of a type depend on the shapes of the records of its names. -/
theorem abilities_congr : ∀ {t : Ty},
    (∀ q ∈ t.names, (known q).map Record.shape = (known' q).map Record.shape) →
    t.abilities known = t.abilities known'
  | prim _, _ => rfl
  | named q, h => by
    have hq := h q (by simp [names])
    change (known q).elim ∅ Record.abilities = (known' q).elim ∅ Record.abilities
    cases hk : known q <;> cases hk' : known' q <;> simp only [hk, hk'] at hq
    · rfl
    · cases hq
    · cases hq
    · exact Record.abilities_of_shape (Option.some.inj hq)
  | generic base args, h => by
    have hbase := h base (by simp [names])
    have hargs : ∀ q ∈ names.namesOf args,
        (known q).map Record.shape = (known' q).map Record.shape := by
      intro q hq
      exact h q (by simp [names, hq])
    rw [abilities_generic, abilities_generic, commonAbilities_congr hargs]
    refine ite_congr rfl (fun _ => rfl) fun _ => ?_
    cases hk : known base <;> cases hk' : known' base <;> simp only [hk, hk'] at hbase
    · rfl
    · cases hbase
    · cases hbase
    · have hinfo := Option.some.inj hbase
      simp only [Option.elim_some, Record.abilities_of_shape hinfo,
        argAbilities_congr hinfo 0 hargs]
  | ref _ _, _ => rfl
  | tuple elems, h => commonAbilities_congr h
  | var _ _, _ => rfl
  | func _ _, _ => rfl
  | unknown, _ => rfl

theorem commonAbilities_congr : ∀ {ts : List Ty},
    (∀ q ∈ names.namesOf ts, (known q).map Record.shape = (known' q).map Record.shape) →
    commonAbilities known ts = commonAbilities known' ts
  | [], _ => rfl
  | t :: ts, h => by
    have ht := abilities_congr (t := t) fun q hq => h q (by simp [names.namesOf, hq])
    have hts : commonAbilities known ts = commonAbilities known' ts :=
      commonAbilities_congr fun q hq => h q (by simp [names.namesOf, hq])
    rw [commonAbilities_cons, commonAbilities_cons, ht, hts]

theorem argAbilities_congr {info info' : Record} (hinfo : info.shape = info'.shape) :
    ∀ (index : Nat) {ts : List Ty},
    (∀ q ∈ names.namesOf ts, (known q).map Record.shape = (known' q).map Record.shape) →
    argAbilities known info index ts = argAbilities known' info' index ts
  | _, [], _ => rfl
  | index, t :: ts, h => by
    have ht := abilities_congr (t := t) fun q hq => h q (by simp [names.namesOf, hq])
    have hts : argAbilities known info (index + 1) ts = argAbilities known' info' (index + 1) ts :=
      argAbilities_congr hinfo (index + 1) fun q hq => h q (by simp [names.namesOf, hq])
    rw [argAbilities_cons, argAbilities_cons, ht, hts, Record.isPhantom_of_shape hinfo]

end

end Ty

end MoveTyping
