/-!
# Finite tables

A table assigns values to finitely many keys. The rows are kept in a list, most recently written
first, and no key occurs in two rows, so the number of rows is the number of keys.

## Main definitions

* `Table.get?` — the value of a key; the view every other operation is described by.
* `Table.insert`, `Table.erase`, `Table.filter` — the updates.
* `Table.ofList` — the table of a list of pairs, where the last pair of a key wins.
-/

namespace MoveTyping

structure Table (κ α : Type) where
  rows : List (κ × α)
  nodup : (rows.map Prod.fst).Nodup

namespace Table

variable {κ α : Type}

def empty : Table κ α := ⟨[], .nil⟩

instance : EmptyCollection (Table κ α) := ⟨empty⟩
instance : Inhabited (Table κ α) := ⟨empty⟩

def size (t : Table κ α) : Nat := t.rows.length

def isEmpty (t : Table κ α) : Bool := t.rows.isEmpty

def keys (t : Table κ α) : List κ := t.rows.map Prod.fst

/-- Keeps the rows that satisfy `p`. -/
def filter (p : κ → α → Bool) (t : Table κ α) : Table κ α where
  rows := t.rows.filter fun r => p r.1 r.2
  nodup := t.nodup.sublist (List.filter_sublist.map _)

theorem size_filter_le (p : κ → α → Bool) (t : Table κ α) : (t.filter p).size ≤ t.size :=
  List.length_filter_le _ _

@[simp] theorem size_empty : (∅ : Table κ α).size = 0 := rfl

variable [DecidableEq κ]

/-- The value in the first row with key `k`. -/
def rowValue (k : κ) : List (κ × α) → Option α
  | [] => none
  | (k', v) :: rows => if k' = k then some v else rowValue k rows

def get? (t : Table κ α) (k : κ) : Option α := rowValue k t.rows

def contains (t : Table κ α) (k : κ) : Bool := (t.get? k).isSome

def erase (t : Table κ α) (k : κ) : Table κ α := t.filter fun k' _ => k' ≠ k

theorem notMem_keys_erase (t : Table κ α) (k : κ) : k ∉ (t.erase k).keys := by
  simp [erase, filter, keys]

/-- Sets the value of `k`, whether it had one or not. -/
def insert (t : Table κ α) (k : κ) (v : α) : Table κ α where
  rows := (k, v) :: (t.erase k).rows
  nodup := List.nodup_cons.2 ⟨t.notMem_keys_erase k, (t.erase k).nodup⟩

/-- The last pair of a key gives its value. -/
def ofList (pairs : List (κ × α)) : Table κ α :=
  pairs.foldl (fun t p => t.insert p.1 p.2) empty

/-! ## Laws of the view -/

theorem rowValue_eq_none_of_notMem {k : κ} {rows : List (κ × α)} (h : k ∉ rows.map Prod.fst) :
    rowValue k rows = none := by
  fun_induction rowValue k rows <;> grind

theorem rowValue_filter (p : κ → α → Bool) (k : κ) {rows : List (κ × α)}
    (h : (rows.map Prod.fst).Nodup) :
    rowValue k (rows.filter fun r => p r.1 r.2) = (rowValue k rows).filter (p k) := by
  induction rows with
  | nil => rfl
  | cons r rows ih =>
    obtain ⟨hk, hrows⟩ := List.nodup_cons.1 h
    have ih := ih hrows
    by_cases hr : r.1 = k
    · have := rowValue_eq_none_of_notMem (hr ▸ hk)
      cases hp : p r.1 r.2 <;> simp_all [rowValue, Option.filter]
    · cases hp : p r.1 r.2 <;> simp_all [rowValue]

@[simp] theorem get?_empty (k : κ) : (∅ : Table κ α).get? k = none := rfl

theorem get?_of_isEmpty {t : Table κ α} (h : t.isEmpty) (k : κ) : t.get? k = none := by
  simp [get?, List.isEmpty_iff.1 h, rowValue]

@[simp] theorem get?_filter (p : κ → α → Bool) (t : Table κ α) (k : κ) :
    (t.filter p).get? k = (t.get? k).filter (p k) := rowValue_filter p k t.nodup

theorem get?_erase (t : Table κ α) (k k' : κ) :
    (t.erase k).get? k' = if k' = k then none else t.get? k' := by
  by_cases h : k' = k <;> cases hg : t.get? k' <;> simp [erase, h, hg]

theorem get?_insert (t : Table κ α) (k k' : κ) (v : α) :
    (t.insert k v).get? k' = if k' = k then some v else t.get? k' := by
  by_cases h : k' = k
  · simp [insert, get?, rowValue, h]
  · have := t.get?_erase k k'
    simp_all [insert, get?, rowValue, Ne.symm h]

@[simp] theorem get?_insert_self (t : Table κ α) (k : κ) (v : α) :
    (t.insert k v).get? k = some v := by simp [get?_insert]

theorem size_insert (t : Table κ α) (k : κ) (v : α) :
    (t.insert k v).size = (t.erase k).size + 1 := by simp [insert, size]

end Table

end MoveTyping
