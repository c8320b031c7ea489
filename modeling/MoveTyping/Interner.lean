import MoveTyping.Table

/-!
# Interned names

An interner gives each text a symbol, and a symbol stands for one text. Symbols pack a shard and a
slot of that shard into one number. The texts the language itself uses have fixed symbols, the
first slots of shard zero, whatever shard their text would otherwise fall into.

## Main definitions

* `Symbol` — a packed shard and slot.
* `Shard` — the texts of a shard by slot, and the slots by text.
* `Interner.intern?` — the symbol of a text, new if need be; it fails only when the shard is full.
* `Interner.get?`, `Interner.text` — the two directions of the table.
-/

namespace MoveTyping

/-- The texts with fixed symbols, in the order of their slots. -/
def wellKnown : List String :=
  ["", "vector", "bool", "u8", "u16", "u32", "u64", "u128", "u256", "address", "signer", "copy",
   "drop", "store", "key", "std", "sui", "0x1", "0x2", "string", "String", "true", "false",
   "option", "Option", "ascii", "Self", "_"]

structure Symbol where
  raw : Nat
deriving DecidableEq, Repr

namespace Symbol

/-- How many of the bits of a symbol give the slot; the bits above them give the shard. -/
def slotBits : Nat := 28

/-- How many slots a shard has. -/
def shardCapacity : Nat := 1 <<< slotBits

def shardCount : Nat := 16

def pack (shard slot : Nat) : Symbol := ⟨shard <<< slotBits ||| slot⟩

def shard (s : Symbol) : Nat := s.raw >>> slotBits

def slot (s : Symbol) : Nat := s.raw &&& (shardCapacity - 1)

/-- The text of a symbol that has a fixed one. -/
def wellKnown? (s : Symbol) : Option String := if s.shard = 0 then wellKnown[s.slot]? else none

/-- A short description, for people. -/
def describe (s : Symbol) : String :=
  match s.wellKnown? with
  | some text => "Name(\"" ++ text ++ "\")"
  | none => "Name(shard=" ++ toString s.shard ++ ", local=" ++ toString s.slot ++ ")"

end Symbol

/-- The slot of each text and the text of each slot. -/
structure Shard where
  slots : Table String Nat
  texts : Array String

namespace Shard

def empty : Shard := ⟨∅, #[]⟩

/-- Puts a text into the next slot. -/
def push (s : Shard) (text : String) : Shard :=
  ⟨s.slots.insert text s.texts.size, s.texts.push text⟩

/-- The shard of the well-known texts. -/
def preloaded : Shard := wellKnown.foldl push empty

end Shard

structure Interner where
  shards : Vector Shard Symbol.shardCount
  /-- How many texts have a symbol. -/
  size : Nat

namespace Interner

/-- The well-known texts and nothing else. -/
def initial : Interner :=
  ⟨(Vector.replicate _ .empty).set 0 .preloaded (by decide), wellKnown.length⟩

def shard (i : Interner) (k : Fin Symbol.shardCount) : Shard := i.shards[k]

/-- The number of the shard of a text, from its first eight bytes. -/
def shardOf (text : String) : Fin Symbol.shardCount :=
  let hash := (text.toUTF8.toList.take 8).foldl (fun acc b => acc * 31 + b.toUInt32) (0 : UInt32)
  ⟨hash.toNat % Symbol.shardCount, Nat.mod_lt _ (by decide)⟩

/-- The symbol of a text that has one. -/
def get? (i : Interner) (text : String) : Option Symbol :=
  match wellKnown.idxOf? text with
  | some slot => some (.pack 0 slot)
  | none => ((i.shard (shardOf text)).slots.get? text).map (.pack (shardOf text))

/-- Puts a text into the next slot of its shard. -/
def add (i : Interner) (text : String) : Interner :=
  ⟨i.shards.set (shardOf text) ((i.shard (shardOf text)).push text), i.size + 1⟩

/-- The symbol of a text, together with the interner that has it; `none` when the text is new and
its shard is full. -/
def intern? (i : Interner) (text : String) : Option (Symbol × Interner) :=
  match i.get? text with
  | some s => some (s, i)
  | none =>
    let slot := (i.shard (shardOf text)).texts.size
    if slot < Symbol.shardCapacity then some (.pack (shardOf text) slot, i.add text) else none

/-- The text of a symbol; a symbol of another interner has the empty text. -/
def text (i : Interner) (s : Symbol) : String :=
  match s.wellKnown? with
  | some t => t
  | none => (i.shards[s.shard]?.bind (·.texts[s.slot]?)).getD ""

end Interner

end MoveTyping
