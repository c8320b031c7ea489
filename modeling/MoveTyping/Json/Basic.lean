/-!
# Strict JSON

The values of JSON texts, and a reader that accepts exactly the grammar: no comments, no trailing
commas, nothing after the value. Objects keep their members in order with repeated names. Of the
numbers only naturals written as plain digits keep their value, because no setting and no catalog
entry is any other number.

## Main definitions

* `Json` — a value.
* `Json.parse?` — the value of a complete text.
-/

namespace MoveTyping

inductive Json where
  | null
  | bool (value : Bool)
  | natural (value : Nat)
  /-- A number with a sign, a fraction or an exponent. -/
  | number
  | string (value : String)
  | array (items : List Json)
  | object (members : List (String × Json))
deriving Repr

namespace Json

def isSpace (c : Char) : Bool := c = ' ' || c = '\t' || c = '\n' || c = '\r'

def skipSpace (cs : List Char) : List Char := cs.dropWhile isSpace

/-! ## Strings -/

def hexValue? (c : Char) : Option Nat :=
  if c.isDigit then some (c.toNat - '0'.toNat)
  else if 'a' ≤ c && c ≤ 'f' then some (c.toNat - 'a'.toNat + 10)
  else if 'A' ≤ c && c ≤ 'F' then some (c.toNat - 'A'.toNat + 10)
  else none

/-- The number written with four hexadecimal digits. -/
def unit? (a b c d : Char) : Option Nat := do
  return (((← hexValue? a) * 16 + (← hexValue? b)) * 16 + (← hexValue? c)) * 16 + (← hexValue? d)

def isHighSurrogate (n : Nat) : Bool := 0xD800 ≤ n && n ≤ 0xDBFF

def isLowSurrogate (n : Nat) : Bool := 0xDC00 ≤ n && n ≤ 0xDFFF

/-- The character that a single letter after a backslash stands for. -/
def shortEscape? : Char → Option Char
  | '"' => some '"'
  | '\\' => some '\\'
  | '/' => some '/'
  | 'b' => some '\x08'
  | 'f' => some '\x0c'
  | 'n' => some '\n'
  | 'r' => some '\r'
  | 't' => some '\t'
  | _ => none

/-- The characters of a string up to its closing quote, and what follows the quote. A pair of
surrogates stands for one character; a lone one is refused, and so is a control character. -/
def readString : List Char → Option (List Char × List Char)
  | '"' :: cs => some ([], cs)
  | '\\' :: 'u' :: a :: b :: c :: d :: cs => do
    let n ← unit? a b c d
    if isHighSurrogate n then
      match cs with
      | '\\' :: 'u' :: e :: f :: g :: h :: cs =>
        let m ← unit? e f g h
        if isLowSurrogate m then
          let (text, rest) ← readString cs
          return (.ofNat (0x10000 + (n - 0xD800) * 0x400 + (m - 0xDC00)) :: text, rest)
        else none
      | _ => none
    else if isLowSurrogate n then none
    else
      let (text, rest) ← readString cs
      return (.ofNat n :: text, rest)
  | '\\' :: c :: cs => do
    let c ← shortEscape? c
    let (text, rest) ← readString cs
    return (c :: text, rest)
  | c :: cs =>
    if c.toNat < 0x20 || c = '\\' then none
    else do
      let (text, rest) ← readString cs
      return (c :: text, rest)
  | [] => none
termination_by structural cs => cs

/-! ## Numbers -/

def digitsValue (digits : List Char) : Nat :=
  digits.foldl (fun n c => n * 10 + (c.toNat - '0'.toNat)) 0

/-- A non-empty run of digits. -/
def readDigits (cs : List Char) : Option (List Char × List Char) :=
  let (digits, rest) := cs.span Char.isDigit
  if digits.isEmpty then none else some (digits, rest)

/-- The digits before a point or an exponent: no zero stands in front of other digits. -/
def readInteger (cs : List Char) : Option (List Char × List Char) := do
  let (digits, rest) ← readDigits cs
  if digits.head? = some '0' && digits.length > 1 then none else return (digits, rest)

/-- What follows a point, if there is one. -/
def readFraction : List Char → Option (Bool × List Char)
  | '.' :: cs => (readDigits cs).map fun r => (true, r.2)
  | cs => some (false, cs)

/-- What follows an exponent mark, if there is one. -/
def readExponent : List Char → Option (Bool × List Char)
  | c :: cs =>
    if c = 'e' || c = 'E' then
      let cs := match cs with
        | '+' :: cs => cs
        | '-' :: cs => cs
        | cs => cs
      (readDigits cs).map fun r => (true, r.2)
    else some (false, c :: cs)
  | [] => some (false, [])

def readNumber (cs : List Char) : Option (Json × List Char) := do
  let (negative, cs) := match cs with
    | '-' :: cs => (true, cs)
    | cs => (false, cs)
  let (digits, cs) ← readInteger cs
  let (fraction, cs) ← readFraction cs
  let (exponent, cs) ← readExponent cs
  return (if negative || fraction || exponent then number else natural (digitsValue digits), cs)

/-! ## Values -/

/-- The rest after `word`, if the text starts with it. -/
def afterWord (word : String) (cs : List Char) : Option (List Char) :=
  if word.toList.isPrefixOf cs then some (cs.drop word.length) else none

mutual

/-- A value after spaces. Every recursive step reads a character, which bounds the fuel. -/
def readValue : Nat → List Char → Option (Json × List Char)
  | 0, _ => none
  | fuel + 1, cs =>
    match skipSpace cs with
    | '"' :: cs => (readString cs).map fun r => (string (.ofList r.1), r.2)
    | '[' :: cs =>
      match skipSpace cs with
      | ']' :: cs => some (array [], cs)
      | cs => (readItems fuel cs).map fun r => (array r.1, r.2)
    | '\x7b' :: cs =>
      match skipSpace cs with
      | '\x7d' :: cs => some (object [], cs)
      | cs => (readMembers fuel cs).map fun r => (object r.1, r.2)
    | 'n' :: cs => (afterWord "ull" cs).map (null, ·)
    | 't' :: cs => (afterWord "rue" cs).map (bool true, ·)
    | 'f' :: cs => (afterWord "alse" cs).map (bool false, ·)
    | cs => readNumber cs

/-- The items of an array, up to its closing bracket. -/
def readItems : Nat → List Char → Option (List Json × List Char)
  | 0, _ => none
  | fuel + 1, cs => do
    let (item, cs) ← readValue fuel cs
    match skipSpace cs with
    | ']' :: cs => return ([item], cs)
    | ',' :: cs =>
      let (items, cs) ← readItems fuel cs
      return (item :: items, cs)
    | _ => none

/-- The members of an object, up to its closing brace. -/
def readMembers : Nat → List Char → Option (List (String × Json) × List Char)
  | 0, _ => none
  | fuel + 1, cs =>
    match skipSpace cs with
    | '"' :: cs => do
      let (name, cs) ← readString cs
      match skipSpace cs with
      | ':' :: cs =>
        let (value, cs) ← readValue fuel cs
        match skipSpace cs with
        | '\x7d' :: cs => return ([(.ofList name, value)], cs)
        | ',' :: cs =>
          let (members, cs) ← readMembers fuel cs
          return ((.ofList name, value) :: members, cs)
        | _ => none
      | _ => none
    | _ => none

end

/-- The value of a complete text. -/
def parse? (text : String) : Option Json := do
  let cs := text.toList
  let (value, rest) ← readValue (2 * cs.length + 2) cs
  if (skipSpace rest).isEmpty then return value else none

end Json

end MoveTyping
