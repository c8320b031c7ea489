import MoveTyping.Text.CaseTable

/-!
# Lower case

The full lower-case form of a text. Two characters need more than the simple mapping: the dotted
capital I becomes two characters, and a sigma that ends a word takes its final form.
-/

namespace MoveTyping.Text

def CaseRun.covers (r : CaseRun) (c : Char) : Bool :=
  r.first ≤ c.toNat && c.toNat ≤ r.last && (c.toNat - r.first) % r.step == 0

/-- The simple lower-case form of a character. -/
def lowerChar (c : Char) : Char :=
  match caseRuns.find? (·.covers c) with
  | some r => .ofNat (c.toNat + r.shift).toNat
  | none => c

def inRanges (ranges : List (Nat × Nat)) (c : Char) : Bool :=
  ranges.any fun r => r.1 ≤ c.toNat && c.toNat ≤ r.2

/-- Whether a letter comes next, not counting the characters that words skip. -/
def letterNext (cs : List Char) : Bool :=
  (cs.dropWhile (inRanges caseIgnorableRanges)).head?.any (inRanges casedRanges)

/-- The lower-case form of `cs`, where `before` holds the characters in front of it, nearest
first. -/
def lowerFrom (before : List Char) : List Char → List Char
  | [] => []
  | c :: cs =>
    let lowered :=
      if c = 'Σ' then [if letterNext before && !letterNext cs then 'ς' else 'σ']
      else if c = 'İ' then ['i', '\u0307']
      else [lowerChar c]
    lowered ++ lowerFrom (c :: before) cs

def lower (cs : List Char) : List Char := lowerFrom [] cs

end MoveTyping.Text
