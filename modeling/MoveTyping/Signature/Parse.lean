import MoveTyping.Address
import MoveTyping.Record
import MoveTyping.Signature.Error
import MoveTyping.Text.Blank

/-!
# Texts of types

Catalogs spell types as they are written in programs: `u64`, `vector<u8>`, `&mut Coin<T>`,
`(bool, u64)`, `0x2::object::UID`. A name of one segment is a type parameter, a built-in type or a
struct of the module at hand; a name of two segments stays at the module's address.

The reader works on the characters that are left and never goes back, so what is left is always an
end of the text, and an error names the first character that does not fit.

## Main definitions

* `Signature.Scope` — the names visible in the types of one item.
* `Signature.parseType` — the type of a complete text.
* `Signature.parseTypeParam`, `Signature.parseAbilities` — declarations of type parameters and
  ability lists.
-/

namespace MoveTyping.Signature

def isIdentChar (c : Char) : Bool := c.isAlphanum || c = '_'

/-- The names visible in the types of one item. -/
structure Scope where
  aliases : Aliases
  /-- The normal form of the module's address. -/
  address : String
  module : String
  structs : List String
  typeParams : List TypeParam

/-- What a name of these segments with these arguments denotes. Arguments of type parameters and
primitives are ignored. -/
def Scope.denote? (s : Scope) (segments : List String) (args : List Ty) : Option Ty :=
  match segments with
  | [name] =>
    match s.typeParams.find? (·.name = name) with
    | some p => some (.var p.name p.bounds)
    | none =>
      if name = "vector" then some (.generic .vector args)
      else match Prim.ofKeyword? name with
        | some kind => some (.prim kind)
        | none =>
          if s.structs.contains name then some (.ofName (.full s.address s.module name) args)
          else none
  | [module, name] => some (.ofName (.full s.address module name) args)
  | [address, module, name] =>
    some (.ofName (.full (s.aliases.normalize address) module name) args)
  | _ => none

/-! ## Reading

A reader gives a value and what is left of the text. -/

/-- Why reading stops, relative to what is left of the text. -/
inductive Fault where
  | ended
  /-- `found` does not fit; `rest` follows it. -/
  | stray (found : Char) (rest : List Char)
  | undefined (name : String)
deriving DecidableEq, Repr

/-- The fault as an error of the whole text. -/
def Fault.toError (text : List Char) : Fault → SignatureError
  | ended => .unexpectedEnd (.ofList text)
  | stray found rest =>
    .unexpectedChar (.ofList text) (Text.byteLength text - Text.byteLength (found :: rest)) found
  | undefined name => .unknownType (.ofList text) name

/-- The fault of finding `cs` where something else has to stand. -/
def refuse {α : Type} : List Char → Except Fault (α × List Char)
  | [] => .error .ended
  | c :: cs => .error (.stray c cs)

/-- A maximal run of identifier characters, after blanks. -/
def readIdent (cs : List Char) : Except Fault (String × List Char) :=
  let (name, rest) := (Text.trimStart cs).span isIdentChar
  if name.isEmpty then refuse rest else .ok (.ofList name, rest)

/-- The segments that follow the first one. The marks between segments stand directly after an
identifier. -/
def readSegments : Nat → List Char → Except Fault (List String × List Char)
  | fuel + 1, ':' :: ':' :: cs => do
    let (name, cs) ← readIdent cs
    let (names, cs) ← readSegments fuel cs
    return (name :: names, cs)
  | _, cs => .ok ([], cs)

/-- Whether the word `mut` stands here, and what follows it. -/
def readMut : List Char → Bool × List Char
  | 'm' :: 'u' :: 't' :: rest =>
    if rest.head?.any isIdentChar then (false, 'm' :: 'u' :: 't' :: rest) else (true, rest)
  | cs => (false, cs)

mutual

/-- A type. Every recursive step reads at least one character, which bounds the fuel. -/
def readType (s : Scope) : Nat → List Char → Except Fault (Ty × List Char)
  | 0, cs => refuse cs
  | fuel + 1, cs =>
    match Text.trimStart cs with
    | '&' :: rest => do
      let (mutable, rest) := readMut (Text.trimStart rest)
      let (inner, rest) ← readType s fuel rest
      return (.ref inner mutable, rest)
    | '(' :: rest => do
      let (elems, rest) ← readList s fuel ')' rest
      return (.ofElems elems, rest)
    | c :: rest =>
      if isIdentChar c then do
        let (name, rest) ← readIdent (c :: rest)
        let (names, rest) ← readSegments rest.length rest
        let (args, rest) ← readArgs s fuel rest
        match s.denote? (name :: names) args with
        | some t => return (t, rest)
        | none => .error (.undefined ("::".intercalate (name :: names)))
      else refuse (c :: rest)
    | [] => .error .ended

/-- The arguments of a name, if it has a list of them. -/
def readArgs (s : Scope) : Nat → List Char → Except Fault (List Ty × List Char)
  | 0, cs => refuse cs
  | fuel + 1, cs =>
    match Text.trimStart cs with
    | '<' :: rest => readList s fuel '>' rest
    | rest => .ok ([], rest)

/-- Types between commas up to `close`, which is read too. -/
def readList (s : Scope) : Nat → Char → List Char → Except Fault (List Ty × List Char)
  | 0, _, cs => refuse cs
  | fuel + 1, close, cs =>
    match Text.trimStart cs with
    | c :: rest => if c = close then .ok ([], rest) else readItems s fuel close (c :: rest)
    | [] => .error .ended

/-- The rest of a list, from one of its types on. -/
def readItems (s : Scope) : Nat → Char → List Char → Except Fault (List Ty × List Char)
  | 0, _, cs => refuse cs
  | fuel + 1, close, cs => do
    let (t, rest) ← readType s fuel cs
    match Text.trimStart rest with
    | ',' :: rest => do
      let (ts, rest) ← readItems s fuel close rest
      return (t :: ts, rest)
    | c :: rest => if c = close then .ok ([t], rest) else refuse (c :: rest)
    | [] => .error .ended

end

/-- A type that fills the whole text. -/
def readWhole (s : Scope) (cs : List Char) : Except Fault Ty := do
  let (t, rest) ← readType s (4 * cs.length + 4) cs
  match Text.trimStart rest with
  | [] => return t
  | c :: rest => .error (.stray c rest)

/-- The type of a complete text. -/
def parseType (s : Scope) (text : String) : Except SignatureError Ty :=
  (readWhole s text.toList).mapError (Fault.toError text.toList)

/-! ## Type parameters and abilities -/

/-- The abilities of a list of keywords. Blank words are skipped; the first unknown one is
reported. -/
def parseAbilities : List String → Except SignatureError AbilitySet
  | [] => .ok ∅
  | word :: words => do
    let word := String.ofList (Text.trim word.toList)
    if word.isEmpty then parseAbilities words
    else match Ability.ofKeyword? word with
      | some a => return .ofList [a] ∪ (← parseAbilities words)
      | none => .error (.unknownAbility word)

/-- The pieces of a text between the separators. -/
def pieces (sep : Char) : List Char → List (List Char)
  | [] => [[]]
  | c :: cs =>
    if c = sep then [] :: pieces sep cs
    else match pieces sep cs with
      | [] => [[c]]
      | piece :: rest => (c :: piece) :: rest

/-- The text after the word `phantom` and the space that ends it. -/
def phantomBody? (cs : List Char) : Option (List Char) :=
  if "phantom ".toList.isPrefixOf cs then some (Text.trimStart (cs.drop 8)) else none

/-- A type parameter: `T`, `T: copy + drop`, `phantom T`. The offset of a character that does not
fit the name is where that character first occurs in the trimmed text. -/
def parseTypeParam (text : String) : Except SignatureError TypeParam := do
  let cs := Text.trim text.toList
  let body := (phantomBody? cs).getD cs
  let name := Text.trim (body.takeWhile (· ≠ ':'))
  let bounds := (body.dropWhile (· ≠ ':')).drop 1
  match name.find? (!isIdentChar ·) with
  | some found =>
    .error (.unexpectedChar (.ofList cs) (Text.byteLength (cs.takeWhile (· ≠ found))) found)
  | none =>
    if name.isEmpty then .error (.unexpectedEnd (.ofList cs))
    else
      let bounds ← parseAbilities ((pieces '+' bounds).map String.ofList)
      return ⟨.ofList name, bounds, (phantomBody? cs).isSome⟩

end MoveTyping.Signature
