import MoveTyping.Proofs.Signature.Accept
import MoveTyping.Proofs.Text.Bytes

/-!
# Reading by position

The reader of type texts once more, as a machine that holds no characters but a position, the number
of bytes that lie behind it. It sees the text through slices from the position on. The position
moves on by the widths of characters and by the lengths of words, and on the way to one of the
errors it moves back.

Nothing in the machine keeps the position between two characters, and nothing bounds its loops: a
slice at any other place, or a step back beyond the start, crashes it, and it may run for ever.

## Main definitions

* `Signature.Cursor` — a position, with all the positions before it.
* `Signature.Scan` — programs that move a cursor.
* `Signature.Source.whole` — the program that reads a complete text.
* `Signature.Scan.Agrees` — what a program does compared with a reader of the characters that are
  left.
-/

namespace MoveTyping.Signature

/-- A position, and the positions from which it was reached, latest first. -/
structure Cursor where
  pos : Nat := 0
  trail : List Nat := []

def Cursor.moveTo (c : Cursor) (pos : Nat) : Cursor := ⟨pos, c.pos :: c.trail⟩

/-- Every position so far. -/
def Cursor.positions (c : Cursor) : List Nat := c.pos :: c.trail

/-- Why a machine stops without a result. -/
inductive Halt where
  | refused (e : SignatureError)
  /-- A slice or a step back at a place where there is none. -/
  | crashed

/-- A program that moves a cursor. The outermost `none` is a run that never ends. -/
abbrev Scan := ExceptT Halt (StateT Cursor Option)

variable {α β : Type}

/-! ## The machine -/

namespace Scan

def ofSlice : Option α → Scan α
  | some a => return a
  | none => throw .crashed

def advance (n : Nat) : Scan Unit := modify fun c => c.moveTo (c.pos + n)

def retreat (n : Nat) : Scan Unit := do
  let c ← get
  if n ≤ c.pos then set (c.moveTo (c.pos - n)) else throw .crashed

end Scan

/-- What a machine reads, and what the names in it mean. -/
structure Source where
  scope : Scope
  text : String

namespace Source

open Scan

/-- The text from the position on. -/
def rest (src : Source) : Scan (List Char) := do
  let sides ← ofSlice (Text.splitBytes? (← get).pos src.text.toList)
  return sides.2

def peek (src : Source) : Scan (Option Char) := return (← src.rest).head?

def bump (src : Source) : Scan (Option Char) := do
  match ← src.peek with
  | some c =>
    advance c.utf8Size
    return some c
  | none => return none

def skipWhile (src : Source) (p : Char → Bool) : Scan Unit := do
  if (← src.peek).any p then
    let _ ← src.bump
    src |>.skipWhile p
partial_fixpoint

def skipBlanks (src : Source) : Scan Unit := src.skipWhile Text.isBlank

def unexpected (src : Source) (c : Char) : Scan α := do
  throw (.refused (.unexpectedChar src.text (← get).pos c))

def ended (src : Source) : Scan α := throw (.refused (.unexpectedEnd src.text))

/-- Any character, after blanks. -/
def expectAny (src : Source) : Scan Char := do
  src.skipBlanks
  match ← src.bump with
  | some c => return c
  | none => src.ended

/-- The error of finding what stands here. -/
def misfit (src : Source) : Scan α := do
  match ← src.peek with
  | some c => src.unexpected c
  | none => src.ended

def ident (src : Source) : Scan String := do
  src.skipBlanks
  let start := (← get).pos
  src.skipWhile isIdentChar
  let stop := (← get).pos
  if start = stop then src.misfit
  else return .ofList (← ofSlice (Text.slice? start stop src.text.toList))

/-- The segments that follow the first one. -/
def segments (src : Source) : Scan (List String) := do
  if "::".toList.isPrefixOf (← src.rest) then
    advance 2
    let name ← src.ident
    return name :: (← src |>.segments)
  else return []
partial_fixpoint

/-- Whether the word `mut` stands here, which is read then. -/
def mutWord (src : Source) : Scan Bool := do
  let cs ← src.rest
  if "mut".toList.isPrefixOf cs then
    let sides ← ofSlice (Text.splitBytes? 3 cs)
    if sides.2.head?.any isIdentChar then return false
    else
      advance 3
      return true
  else return false

mutual

def type (src : Source) : Scan Ty := do
  src.skipBlanks
  match ← src.peek with
  | none => src.ended
  | some '&' =>
    let _ ← src.bump
    src.skipBlanks
    let mutable ← src.mutWord
    return .ref (← src |>.type) mutable
  | some '(' =>
    let _ ← src.bump
    return .ofElems (← src |>.list ')')
  | some c => if isIdentChar c then src |>.path else src.unexpected c
partial_fixpoint

/-- Types between commas up to `close`, which is read too. -/
def list (src : Source) (close : Char) : Scan (List Ty) := do
  src.skipBlanks
  if (← src.peek) = some close then
    let _ ← src.bump
    return []
  else src |>.items close
partial_fixpoint

def items (src : Source) (close : Char) : Scan (List Ty) := do
  let t ← src |>.type
  let c ← src.expectAny
  if c = ',' then return t :: (← src |>.items close)
  else if c = close then return [t]
  else
    -- the character is read already, and the error is to be where it starts
    retreat c.utf8Size
    src.unexpected c
partial_fixpoint

def path (src : Source) : Scan Ty := do
  let name ← src.ident
  let names ← src.segments
  let args ← src |>.args
  match src.scope.denote? (name :: names) args with
  | some t => return t
  | none => throw (.refused (.unknownType src.text ("::".intercalate (name :: names))))
partial_fixpoint

def args (src : Source) : Scan (List Ty) := do
  src.skipBlanks
  if (← src.peek) = some '<' then
    let _ ← src.bump
    src |>.list '>'
  else return []
partial_fixpoint

end

/-- A type that fills the whole text. -/
def whole (src : Source) : Scan Ty := do
  let t ← src.type
  src.skipBlanks
  match ← src.peek with
  | none => return t
  | some c => src.unexpected c

end Source

/-! ## Runs -/

namespace Scan

/-- The run of a program from a cursor on. -/
def runFrom (c : Cursor) (m : Scan α) : Option (Except Halt α × Cursor) := m.run.run c

variable {c c' : Cursor} {m : Scan α} {k : α → Scan β} {a : α} {h : Halt}

theorem runFrom_bind_of_ok (hm : m.runFrom c = some (.ok a, c')) :
    (m >>= k).runFrom c = (k a).runFrom c' := by
  change (m.runFrom c >>= fun r => StateT.run (ExceptT.bindCont k r.1) r.2) = _
  rw [hm]
  rfl

theorem runFrom_bind_of_error (hm : m.runFrom c = some (.error h, c')) :
    (m >>= k).runFrom c = some (.error h, c') := by
  change (m.runFrom c >>= fun r => StateT.run (ExceptT.bindCont k r.1) r.2) = _
  rw [hm]
  rfl

end Scan

/-! ## Places -/

namespace Cursor

variable {text : String} {c : Cursor} {ch : Char} {cs run : List Char}

/-- The cursor has always been at a place where the text can be cut. -/
def Sound (text : String) (c : Cursor) : Prop :=
  ∀ p ∈ c.positions, String.Pos.Raw.IsValid text ⟨p⟩

/-- The cursor has always been at places where the text can be cut, and `cs` is left. -/
structure At (text : String) (cs : List Char) (c : Cursor) : Prop where
  behind : ∃ before, text.toList = before ++ cs ∧ Text.byteLength before = c.pos
  sound : c.Sound text

theorem At.suffix (h : c.At text cs) : cs <:+ text.toList := by
  obtain ⟨before, htext, _⟩ := h.behind
  exact ⟨before, htext.symm⟩

theorem At.pos_eq {before : List Char} (h : c.At text cs) (htext : text.toList = before ++ cs) :
    c.pos = Text.byteLength before := by
  obtain ⟨before', htext', hpos⟩ := h.behind
  rw [← hpos, List.append_cancel_right (htext'.symm.trans htext)]

theorem At.start (text : String) : At text text.toList {} := by
  refine ⟨⟨[], rfl, rfl⟩, ?_⟩
  intro p hp
  obtain rfl : p = 0 := by simpa [positions] using hp
  exact String.Pos.Raw.isValid_zero

/-- Where a cursor comes to if it moves to a place with `cs` behind it. -/
theorem Sound.at_moveTo {pos : Nat} {before : List Char} (h : c.Sound text)
    (htext : text.toList = before ++ cs) (hpos : Text.byteLength before = pos) :
    (c.moveTo pos).At text cs := by
  refine ⟨⟨before, htext, hpos⟩, ?_⟩
  intro p hp
  obtain rfl | hp : p = pos ∨ p ∈ c.positions := by simpa [moveTo, positions] using hp
  · exact Text.isValid_iff.2 ⟨before, cs, htext, hpos⟩
  · exact h p hp

theorem At.advance (h : c.At text (run ++ cs)) :
    (c.moveTo (c.pos + Text.byteLength run)).At text cs := by
  obtain ⟨before, htext, hpos⟩ := h.behind
  have htext' : text.toList = (before ++ run) ++ cs := by simp [htext]
  exact h.sound.at_moveTo htext' (by simp [hpos])

theorem At.retreat (h : c.At text cs) (hch : ch :: cs <:+ text.toList) :
    ch.utf8Size ≤ c.pos ∧ (c.moveTo (c.pos - ch.utf8Size)).At text (ch :: cs) := by
  obtain ⟨before, htext, hpos⟩ := h.behind
  obtain ⟨before', htext'⟩ := hch
  -- what lies behind the cursor ends with the character
  obtain rfl : before' ++ [ch] = before := by
    have : before' ++ [ch] ++ cs = before ++ cs := by simp [← htext, ← htext']
    exact List.append_cancel_right this
  have hwidth : Text.byteLength before' + ch.utf8Size = c.pos := by
    rw [← hpos, Text.byteLength_append]
    rfl
  exact ⟨by omega, h.sound.at_moveTo htext'.symm (by omega)⟩

end Cursor

/-! ## Agreement with readers -/

/-- The fault names a character of the text with all that follows it. -/
def Fault.Within (text : String) : Fault → Prop
  | stray found rest => found :: rest <:+ text.toList
  | _ => True

/-- The outcome of a run that gives what a reader gives. -/
inductive Outcome {α : Type} (text : String) :
    Except Fault (α × List Char) → Option (Except Halt α × Cursor) → Prop
  | ok {a : α} {cs : List Char} {c : Cursor} : c.At text cs →
      Outcome text (.ok (a, cs)) (some (.ok a, c))
  | error {f : Fault} {c : Cursor} : c.Sound text → f.Within text →
      Outcome text (.error f) (some (.error (.refused (f.toError text.toList)), c))

namespace Scan

variable {text : String} {src : Source} {cs cs' rest' : List Char} {ch : Char} {m : Scan α}
  {k : α → Scan β} {a : α} {p : Char → Bool}

/-- Wherever `cs` is left, the program does what a reader does with `cs`. -/
def Agrees (text : String) (m : Scan α) (cs : List Char) (r : Except Fault (α × List Char)) :
    Prop :=
  ∀ c : Cursor, c.At text cs → Outcome text r (m.runFrom c)

theorem agrees_pure (a : α) : Agrees text (pure a) cs (.ok (a, cs)) := fun _ hc => .ok hc

theorem Agrees.bind {r : Except Fault (α × List Char)}
    {q : α × List Char → Except Fault (β × List Char)} (hm : Agrees text m cs r)
    (hk : ∀ a cs', r = .ok (a, cs') → Agrees text (k a) cs' (q (a, cs'))) :
    Agrees text (m >>= k) cs (r >>= q) := by
  intro c hc
  have hrun := hm c hc
  generalize hout : m.runFrom c = out at hrun
  cases hrun with
  | ok hc' =>
    rw [runFrom_bind_of_ok hout]
    exact hk _ _ rfl _ hc'
  | error hsound hwithin =>
    rw [runFrom_bind_of_error hout]
    exact .error hsound hwithin

theorem Agrees.bind_ok {r : Except Fault (β × List Char)} (hm : Agrees text m cs (.ok (a, cs')))
    (hk : Agrees text (k a) cs' r) : Agrees text (m >>= k) cs r :=
  hm.bind (q := fun _ => r) fun _ _ h => by cases h; exact hk

theorem Agrees.bind_error {f : Fault} (hm : Agrees text m cs (.error f)) :
    Agrees text (m >>= k) cs (.error f) :=
  hm.bind (q := fun _ => .error f) fun _ _ h => by cases h

/-- Only the ends of the text can be left. -/
theorem Agrees.of_suffix {r : Except Fault (α × List Char)}
    (h : cs <:+ text.toList → Agrees text m cs r) : Agrees text m cs r :=
  fun c hc => h hc.suffix c hc

/-- A program that asks for its cursor may be told any cursor at the same place. -/
theorem Agrees.get_bind {k : Cursor → Scan β} {r : Except Fault (β × List Char)}
    (h : ∀ c : Cursor, c.At text cs → Agrees text (k c) cs r) : Agrees text (get >>= k) cs r :=
  fun c hc => h c hc c hc

/-! ### Steps -/

theorem agrees_ofSlice {o : Option α} (h : o = some a) :
    Agrees text (ofSlice o) cs (.ok (a, cs)) := by
  rw [h]
  exact agrees_pure a

theorem agrees_rest : Agrees src.text src.rest cs (.ok (cs, cs)) := by
  intro c hc
  obtain ⟨before, hbehind⟩ := hc.behind
  have hslice : Agrees src.text (ofSlice (Text.splitBytes? c.pos src.text.toList)) cs
      (.ok (_, cs)) :=
    agrees_ofSlice (Text.splitBytes?_eq_some_iff.2 hbehind)
  exact (hslice.bind_ok (agrees_pure cs)) c hc

theorem agrees_peek : Agrees src.text src.peek cs (.ok (cs.head?, cs)) :=
  agrees_rest.bind_ok (agrees_pure _)

theorem agrees_advance {run : List Char} {n : Nat} (hn : Text.byteLength run = n) :
    Agrees text (advance n) (run ++ cs) (.ok ((), cs)) :=
  fun _ hc => .ok (hn ▸ hc.advance)

theorem agrees_retreat (hch : ch :: cs <:+ text.toList) :
    Agrees text (retreat ch.utf8Size) cs (.ok ((), ch :: cs)) := by
  intro c hc
  obtain ⟨hle, hat⟩ := hc.retreat hch
  have hrun : (retreat ch.utf8Size).runFrom c = some (.ok (), c.moveTo (c.pos - ch.utf8Size)) := by
    change (if _ then _ else _ : Scan Unit).runFrom c = _
    rw [if_pos hle]
    rfl
  rw [hrun]
  exact .ok hat

theorem agrees_bump : Agrees src.text src.bump (ch :: cs) (.ok (some ch, cs)) := by
  refine agrees_peek.bind_ok ?_
  have hstep : Agrees src.text (advance ch.utf8Size) ([ch] ++ cs) (.ok ((), cs)) :=
    agrees_advance rfl
  exact hstep.bind_ok (agrees_pure _)

theorem agrees_bump_nil : Agrees src.text src.bump [] (.ok (none, [])) :=
  agrees_peek.bind_ok (agrees_pure _)

theorem agrees_skipWhile : Agrees src.text (src.skipWhile p) cs (.ok ((), cs.dropWhile p)) := by
  induction cs with
  | nil =>
    rw [Source.skipWhile]
    exact agrees_peek.bind_ok (agrees_pure ())
  | cons ch cs ih =>
    rw [Source.skipWhile]
    refine agrees_peek.bind_ok ?_
    by_cases hch : p ch = true
    · simp only [List.head?_cons, Option.any_some, List.dropWhile_cons, hch, if_true]
      exact agrees_bump.bind_ok (k := fun _ => src.skipWhile p) ih
    · simp only [List.head?_cons, Option.any_some, List.dropWhile_cons, hch]
      exact agrees_pure ()

theorem agrees_skipBlanks : Agrees src.text src.skipBlanks cs (.ok ((), Text.trimStart cs)) :=
  agrees_skipWhile

theorem agrees_throw {f : Fault} {e : SignatureError} (hf : f.Within text)
    (he : f.toError text.toList = e) :
    Agrees text (throw (.refused e) : Scan α) cs (.error f) := by
  subst he
  exact fun c hc => .error hc.sound hf

theorem agrees_ended : Agrees src.text (src.ended : Scan α) cs (.error .ended) :=
  agrees_throw trivial (by rw [Fault.toError, String.ofList_toList])

/-- The position of a character that does not fit is what the text has in front of it. -/
theorem agrees_unexpected : Agrees src.text (src.unexpected ch : Scan α) (ch :: cs)
    (.error (.stray ch cs)) := by
  refine .get_bind fun c hc => agrees_throw hc.suffix ?_
  obtain ⟨before, htext, hpos⟩ := hc.behind
  rw [Fault.toError, String.ofList_toList, htext, Text.byteLength_append, Nat.add_sub_cancel, hpos]

theorem agrees_undefined (name : String) :
    Agrees text (throw (.refused (.unknownType text name)) : Scan α) cs
      (.error (.undefined name)) :=
  agrees_throw trivial (by rw [Fault.toError, String.ofList_toList])

end Scan

end MoveTyping.Signature
