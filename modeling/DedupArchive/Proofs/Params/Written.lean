/-
  DedupArchive/Proofs/Params/Written.lean
  =======================================
  **Parameters that are written can be read.**

  The two layouts differ in blanks only, so both spell the same tokens.  Reading
  these gives back all five numbers; that chunks are hashed is not written and
  comes back as yes.
-/
import DedupArchive.Params.Json
import DedupArchive.Proofs.Json.Spelling

namespace DedupArchive.Params

open Json (Token Spells SpellsValue EndsNumber)

variable (p : Params)

/-! ### Tokens -/

def boundToken : Option UInt64 → Token
  | none => .null
  | some max => .number (some max.toNat)

def memberTokens (key : String) (value : Token) : List Token := [.string (some key), .colon, value]

def tokens : List Token :=
  .openObject :: (memberTokens "window_size" (.number (some p.window.toNat)) ++ .comma ::
    (memberTokens "mask_bits" (.number (some p.maskBits.toNat)) ++ .comma ::
    (memberTokens "multiplier" (.number (some p.multiplier.toNat)) ++ .comma ::
    (memberTokens "min_size" (.number (some p.minSize.toNat)) ++ .comma ::
    (memberTokens "max_size" (boundToken p.maxSize) ++ [.closeObject])))))

/-! ### Reading -/

theorem word64?_toNat (w : UInt64) : word64? [.number (some w.toNat)] = some w := by
  rw [word64?, if_pos w.toNat_lt_size, UInt64.ofNat_toNat]

theorem word32?_toNat (w : UInt32) : word32? [.number (some w.toNat)] = some w := by
  rw [word32?, if_pos w.toNat_lt_size, UInt32.ofNat_toNat]

theorem bound?_boundToken (max : Option UInt64) : bound? [boundToken max] = some max := by
  cases max with
  | none => rfl
  | some max => rw [boundToken, bound?, word64?_toNat, Option.map_some]; exact nofun

theorem items?_tokens : Json.items? p.tokens = some (.object,
    [memberTokens "window_size" (.number (some p.window.toNat)),
      memberTokens "mask_bits" (.number (some p.maskBits.toNat)),
      memberTokens "multiplier" (.number (some p.multiplier.toNat)),
      memberTokens "min_size" (.number (some p.minSize.toNat)),
      memberTokens "max_size" (boundToken p.maxSize)]) := by
  cases hmax : p.maxSize <;> simp [tokens, hmax, boundToken, Json.items?, Json.splitItems?, memberTokens]

theorem ofTokens?_tokens : ofTokens? p.tokens = some { p with hashing := true } := by
  simp [ofTokens?, items?_tokens, memberTokens, readMember?, Partial.empty, word64?_toNat, word32?_toNat,
    bound?_boundToken, Partial.complete?]

/-! ### Writing -/

/-- Members on lines of their own: what stands before a key, behind a colon and
    behind the last member depends on the layout. -/
def laidOut (lead gap closing : List Char) : List (String × String) → List Char
  | [] => closing
  | [(key, value)] => lead ++ ('"' :: key.toList ++ ['"']) ++ (':' :: gap) ++ value.toList ++ closing
  | (key, value) :: rest =>
    lead ++ ('"' :: key.toList ++ ['"']) ++ (':' :: gap) ++ value.toList ++
      ',' :: laidOut lead gap closing rest

theorem toList_toJson : p.toJson.toList = '\x7b' :: laidOut [] [] ['\x7d'] p.members := by
  simp [toJson, members, laidOut]

theorem toList_toIndentedJson : p.toIndentedJson.toList =
    '\x7b' :: laidOut ['\n', ' ', ' '] [' '] ['\n', '\x7d'] p.members := by
  simp [toIndentedJson, members, laidOut]

theorem spellsValue_bound (max : Option UInt64) : SpellsValue
    (match max with
      | none => "null"
      | some max => toString max.toNat).toList (boundToken max) := by
  cases max with
  | none => exact Json.spells_null.spellsValue
  | some max => exact Json.spellsValue_number max.toNat

section Layout

variable {lead gap : List Char} (hlead : Spells lead []) (hgap : Spells gap [])

include hlead hgap

theorem spells_member (key : String) (hkey : ∀ c ∈ key.toList, Json.IsPlain c) {value : List Char}
    {v : Token} (hvalue : SpellsValue value v) {c : Char} {rest : List Char} {tokens : List Token}
    (hend : EndsNumber c) (hrest : Spells (c :: rest) tokens) :
    Spells (lead ++ ('"' :: key.toList ++ ['"']) ++ (':' :: gap) ++ value ++ c :: rest)
      (memberTokens key v ++ tokens) := by
  have hquoted := Json.spells_string hkey
  rw [String.ofList_toList] at hquoted
  have hkeyed := (hlead.append hquoted).append (Json.spells_colon.append hgap)
  have hmember := hkeyed.append (hvalue hend hrest)
  rw [List.append_assoc _ value]
  exact hmember

/-- **Writing.**  Whatever the layout, the same tokens are written. -/
theorem spells_laidOut {c : Char} {rest : List Char} (hend : EndsNumber c)
    (hclose : Spells (c :: rest) [.closeObject]) :
    Spells ('\x7b' :: laidOut lead gap (c :: rest) p.members) p.tokens := by
  have hcomma : EndsNumber ',' := by decide
  -- from the last member to the first, each with the text behind it
  have hmax := spells_member hlead hgap "max_size" (by simp [Json.IsPlain])
    (spellsValue_bound p.maxSize) hend hclose
  have hmin := spells_member hlead hgap "min_size" (by simp [Json.IsPlain])
    (Json.spellsValue_number p.minSize.toNat) hcomma (Json.spells_comma.append hmax)
  have hmultiplier := spells_member hlead hgap "multiplier" (by simp [Json.IsPlain])
    (Json.spellsValue_number p.multiplier.toNat) hcomma (Json.spells_comma.append hmin)
  have hmask := spells_member hlead hgap "mask_bits" (by simp [Json.IsPlain])
    (Json.spellsValue_number p.maskBits.toNat) hcomma (Json.spells_comma.append hmultiplier)
  have hwindow := spells_member hlead hgap "window_size" (by simp [Json.IsPlain])
    (Json.spellsValue_number p.window.toNat) hcomma (Json.spells_comma.append hmask)
  exact Json.spells_openObject.append hwindow

end Layout

theorem ofJson?_toJson : ofJson? p.toJson = some { p with hashing := true } := by
  have hspells : Spells p.toJson.toList p.tokens := by
    rw [toList_toJson]
    exact spells_laidOut p (fun _ => rfl) (fun _ => rfl) (by decide) Json.spells_closeObject
  rw [ofJson?, hspells.tokens_eq, Option.bind_some, ofTokens?_tokens]

theorem ofJson?_toIndentedJson : ofJson? p.toIndentedJson = some { p with hashing := true } := by
  have hspells : Spells p.toIndentedJson.toList p.tokens := by
    rw [toList_toIndentedJson]
    exact spells_laidOut p (fun _ => rfl) (fun _ => rfl) (by decide) fun _ => rfl
  rw [ofJson?, hspells.tokens_eq, Option.bind_some, ofTokens?_tokens]

end DedupArchive.Params
