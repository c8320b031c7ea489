import MoveTyping.Json.Decode
import MoveTyping.Text.Blank

/-!
# Settings

How large the cache may grow, how deep an inference may go, and whether the files of a batch are
worked on side by side. Settings come from a JSON text, where every field has a default, and from
environment variables, which override what was read. The result is checked at the end.

## Main definitions

* `Settings`, `CacheSettings` — the settings with their defaults.
* `DepthLimit` — the bound on nested inferences.
* `Settings.parse`, `Settings.override` — the two ways to read them.
-/

namespace MoveTyping

/-- Sizes of the type cache. Both numbers are words of 64 bits. -/
structure CacheSettings where
  /-- An insertion into a cache of this size or more sweeps it first. -/
  maxEntries : Nat := 100000
  /-- The size a sweep shrinks to, in percent of `maxEntries`. -/
  lowWatermarkPercent : Nat := 75
deriving DecidableEq, Repr

/-- The size a sweep shrinks to. The product stays at the largest word when it is larger. -/
def CacheSettings.lowWatermark (s : CacheSettings) : Nat :=
  min (s.maxEntries * min s.lowWatermarkPercent 100) (UInt64.size - 1) / 100

/-- The bound on nested inferences: a frame at a depth below the limit may be entered. -/
structure DepthLimit where
  limit : Nat
deriving DecidableEq, Repr

namespace DepthLimit

/-- A limit of zero is raised to one, so that the outermost frame is entered. -/
def ofMax (maxDepth : Nat) : DepthLimit := ⟨max 1 maxDepth⟩

def standard : DepthLimit := ⟨512⟩

def allows (l : DepthLimit) (depth : Nat) : Bool := depth < l.limit

end DepthLimit

structure Settings where
  cache : CacheSettings := {}
  /-- A word of 32 bits. -/
  maxDepth : Nat := DepthLimit.standard.limit
  /-- Whether the engines of a batch, one for each file, take turns. -/
  parallel : Bool := true
deriving DecidableEq, Repr

namespace Settings

def depthLimit (s : Settings) : DepthLimit := .ofMax s.maxDepth

/-! ## Errors -/

/-- The environment variables, in the order in which they are read. -/
inductive Variable where
  | maxEntries | lowWatermark | maxDepth | parallel
deriving DecidableEq, Repr

def Variable.name : Variable → String
  | maxEntries => "MOVA_CACHE_MAX_ENTRIES"
  | lowWatermark => "MOVA_CACHE_LOW_WATERMARK"
  | maxDepth => "MOVA_MAX_INFER_DEPTH"
  | parallel => "MOVA_PARALLEL"

/-- What a variable has to hold. -/
def Variable.expected : Variable → String
  | maxEntries => "an entry count"
  | lowWatermark => "a percentage"
  | maxDepth => "a depth"
  | parallel => "a flag"

/-- Settings out of their range. -/
inductive Violation where
  | noEntries | watermarkAboveFull | noDepth
deriving DecidableEq, Repr

def Violation.message : Violation → String
  | noEntries => "invalid setting `cache.max_entries`: must be at least 1"
  | watermarkAboveFull => "invalid setting `cache.low_watermark_percent`: must be at most 100"
  | noDepth => "invalid setting `infer.max_depth`: must be at least 1"

inductive Error where
  /-- The text is not the JSON of settings. -/
  | malformed
  | badVariable (var : Variable) (value : String)
  | invalid (violation : Violation)
deriving DecidableEq, Repr

def Error.message : Error → String
  | malformed => "malformed settings"
  | badVariable v value => "`" ++ v.name ++ "` must be " ++ v.expected ++ ", got `" ++ value ++ "`"
  | invalid violation => violation.message

/-- The first setting out of its range, if there is one. -/
def violation? (s : Settings) : Option Violation :=
  if s.cache.maxEntries = 0 then some .noEntries
  else if s.cache.lowWatermarkPercent > 100 then some .watermarkAboveFull
  else if s.maxDepth = 0 then some .noDepth
  else none

def validate (s : Settings) : Except Error Settings :=
  match s.violation? with
  | some v => .error (.invalid v)
  | none => .ok s

/-! ## JSON -/

def cacheOfJson? (j : Json) : Option CacheSettings := do
  let f ← j.fields? ["max_entries", "low_watermark_percent"]
  let default : CacheSettings := {}
  return {
    maxEntries := ← f.optional "max_entries" default.maxEntries (Json.toNat? UInt64.size)
    lowWatermarkPercent :=
      ← f.optional "low_watermark_percent" default.lowWatermarkPercent (Json.toNat? UInt64.size) }

def depthOfJson? (j : Json) : Option Nat := do
  let f ← j.fields? ["max_depth"]
  f.optional "max_depth" DepthLimit.standard.limit (Json.toNat? UInt32.size)

def ofJson? (j : Json) : Option Settings := do
  let f ← j.fields? ["cache", "infer", "parallel"]
  return {
    cache := ← f.optional "cache" {} cacheOfJson?
    maxDepth := ← f.optional "infer" DepthLimit.standard.limit depthOfJson?
    parallel := ← f.optional "parallel" true Json.toBool? }

/-- The settings of a JSON text. -/
def parse (text : String) : Except Error Settings :=
  match Json.parse? text >>= ofJson? with
  | some s => s.validate
  | none => .error .malformed

/-! ## Environment variables -/

/-- A natural number below `bound`: digits, with a plus sign in front or not. -/
def word? (bound : Nat) (cs : List Char) : Option Nat :=
  let digits := match cs with
    | '+' :: rest => rest
    | _ => cs
  if digits.isEmpty || !digits.all Char.isDigit then none
  else
    let n := Json.digitsValue digits
    if n < bound then some n else none

def flag? (cs : List Char) : Option Bool :=
  let word := String.ofList (cs.map Char.toLower)
  if ["1", "true", "yes", "on"].contains word then some true
  else if ["0", "false", "no", "off"].contains word then some false
  else none

/-- The value of a variable without the blanks around it, or `default` when it is not set. -/
def readVariable {α : Type} (env : String → Option String) (v : Variable) (default : α)
    (read : List Char → Option α) : Except Error α :=
  match env v.name with
  | none => .ok default
  | some value =>
    match read (Text.trim value.toList) with
    | some a => .ok a
    | none => .error (.badVariable v value)

/-- The settings with the variables that are set in `env`. -/
def override (s : Settings) (env : String → Option String) : Except Error Settings := do
  let maxEntries ← readVariable env .maxEntries s.cache.maxEntries (word? UInt64.size)
  let lowWatermarkPercent ←
    readVariable env .lowWatermark s.cache.lowWatermarkPercent (word? UInt64.size)
  let maxDepth ← readVariable env .maxDepth s.maxDepth (word? UInt32.size)
  let parallel ← readVariable env .parallel s.parallel flag?
  validate ⟨⟨maxEntries, lowWatermarkPercent⟩, maxDepth, parallel⟩

end Settings

end MoveTyping
