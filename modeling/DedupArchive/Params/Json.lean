/-
  DedupArchive/Params/Json.lean
  =============================
  **Chunking parameters as JSON.**

  A store keeps its parameters as an object of five members; whether chunks are
  hashed is not kept, and comes back as yes.  Two layouts are written, compact
  and indented, and `ofJson?` reads both: in any order, with further members
  ignored, a missing bound read as none, or as an array of the five values.
-/
import DedupArchive.Params.Basic
import DedupArchive.Json.Value

namespace DedupArchive.Params

open Json (Token)

/-! ### Writing -/

def members (p : Params) : List (String × String) :=
  [("window_size", toString p.window.toNat),
    ("mask_bits", toString p.maskBits.toNat),
    ("multiplier", toString p.multiplier.toNat),
    ("min_size", toString p.minSize.toNat),
    ("max_size", match p.maxSize with
      | none => "null"
      | some max => toString max.toNat)]

def toJson (p : Params) : String :=
  let lines := p.members.map fun (key, value) => "\"" ++ key ++ "\":" ++ value
  "\x7b" ++ ",".intercalate lines ++ "\x7d"

def toIndentedJson (p : Params) : String :=
  let lines := p.members.map fun (key, value) => "  \"" ++ key ++ "\": " ++ value
  "\x7b\n" ++ ",\n".intercalate lines ++ "\n\x7d"

/-! ### Reading -/

/-- What has been read of the parameters; a bound that may be absent is read
    as an optional number inside. -/
structure Partial where
  window : Option UInt64
  maskBits : Option UInt32
  multiplier : Option UInt32
  minSize : Option UInt64
  maxSize : Option (Option UInt64)

namespace Partial

def empty : Partial := ⟨none, none, none, none, none⟩

def complete? (q : Partial) : Option Params :=
  match q.window, q.maskBits, q.multiplier, q.minSize with
  | some window, some maskBits, some multiplier, some minSize =>
    some ⟨window, maskBits, multiplier, minSize, q.maxSize.getD none, true⟩
  | _, _, _, _ => none

end Partial

def word64? : List Token → Option UInt64
  | [.number (some n)] => if n < UInt64.size then some (UInt64.ofNat n) else none
  | _ => none

def word32? : List Token → Option UInt32
  | [.number (some n)] => if n < UInt32.size then some (UInt32.ofNat n) else none
  | _ => none

def bound? : List Token → Option (Option UInt64)
  | [.null] => some none
  | value => (word64? value).map some

/-- Read one member.  A known key is taken once; the value of any other key is
    only checked to be a value. -/
def readMember? (q : Partial) (item : List Token) : Option Partial :=
  match item with
  | .string (some key) :: .colon :: value =>
    if key = "window_size" then
      if q.window.isSome then none else (word64? value).map fun v => { q with window := some v }
    else if key = "mask_bits" then
      if q.maskBits.isSome then none else (word32? value).map fun v => { q with maskBits := some v }
    else if key = "multiplier" then
      if q.multiplier.isSome then none
      else (word32? value).map fun v => { q with multiplier := some v }
    else if key = "min_size" then
      if q.minSize.isSome then none else (word64? value).map fun v => { q with minSize := some v }
    else if key = "max_size" then
      if q.maxSize.isSome then none else (bound? value).map fun v => { q with maxSize := some v }
    else if Json.isValue value then some q
    else none
  | _ => none

def ofTokens? (tokens : List Token) : Option Params :=
  match Json.items? tokens with
  | some (.object, items) => (items.foldlM readMember? Partial.empty).bind Partial.complete?
  | some (.array, [window, maskBits, multiplier, minSize, maxSize]) =>
    match word64? window, word32? maskBits, word32? multiplier, word64? minSize, bound? maxSize with
    | some window, some maskBits, some multiplier, some minSize, some maxSize =>
      some ⟨window, maskBits, multiplier, minSize, maxSize, true⟩
    | _, _, _, _, _ => none
  | _ => none

def ofJson? (text : String) : Option Params := (Json.tokens? text.toList).bind ofTokens?

end DedupArchive.Params
