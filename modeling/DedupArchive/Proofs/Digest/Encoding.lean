/-
  DedupArchive/Proofs/Digest/Encoding.lean
  ========================================
  **A digest and its text are the same thing.**

  Blobs lie in files named by the texts of their digests, so a text must name one
  digest at most, a digest must have one text only, and a list of names must be
  in the order of the digests.

  Reading is said here a second time, on the bytes of a text instead of its
  characters: the length is counted in bytes, and pairs of bytes are cut out of a
  text that may break in the middle of a character.  Such a cut is an error that
  no result stands for, and no text whatsoever causes it.
-/
import DedupArchive.Proofs.Digest.Written

namespace DedupArchive

/-! ### Texts as bytes -/

theorem Bytes.ofText_injective {s t : String} (h : ofText s = ofText t) : s = t :=
  String.toByteArray_inj.mp (ByteArray.ext (Array.toList_inj.mp h))

/-- Characters of one byte each are their bytes. -/
theorem Bytes.ofText_ofList {chars : List Char} (h : ∀ c ∈ chars, c.utf8Size = 1) :
    ofText (String.ofList chars) = chars.map (·.val.toUInt8) := by
  rw [ofText, String.toUTF8_eq_toByteArray, String.toByteArray_ofList]
  induction chars with
  | nil => rfl
  | cons c rest ih =>
    rw [List.utf8Encode_cons, List.utf8Encode_singleton,
      String.utf8EncodeChar_eq_singleton (h c List.mem_cons_self), ByteArray.data_append,
      Array.toList_append, ih fun d hd => h d (List.mem_cons_of_mem c hd), List.toList_data_toByteArray]
    rfl

structure BadSlice where
  first : Nat
  last : Nat

namespace Bytes

def isBoundary (bytes : Bytes) (place : Nat) : Bool :=
  place == bytes.length || bytes[place]?.any fun b => b < 128 || 192 ≤ b

def slice (bytes : Bytes) (first last : Nat) : Except BadSlice Bytes :=
  if first ≤ last ∧ bytes.isBoundary first ∧ bytes.isBoundary last then
    .ok ((bytes.drop first).take (last - first))
  else .error ⟨first, last⟩

variable {bytes : Bytes}

theorem isBoundary_of_small (hsmall : ∀ b ∈ bytes, b < 128) {place : Nat} (hplace : place ≤ bytes.length) :
    bytes.isBoundary place = true := by
  rcases Nat.lt_or_eq_of_le hplace with hlt | heq
  · simp [isBoundary, List.getElem?_eq_getElem hlt, hsmall _ (List.getElem_mem hlt)]
  · simp [isBoundary, heq]

theorem slice_of_small (hsmall : ∀ b ∈ bytes, b < 128) {first last : Nat} (hle : first ≤ last)
    (hlast : last ≤ bytes.length) :
    bytes.slice first last = .ok ((bytes.drop first).take (last - first)) :=
  if_pos ⟨hle, isBoundary_of_small hsmall (hle.trans hlast), isBoundary_of_small hsmall hlast⟩

end Bytes

namespace Digest

/-! ### Reading by slices -/

def isHexByte (b : UInt8) : Bool := (48 ≤ b && b ≤ 57) || (97 ≤ b && b ≤ 102)

def digit16? (b : UInt8) : Option Nat :=
  if 48 ≤ b && b ≤ 57 then some (b.toNat - 48)
  else if 97 ≤ b && b ≤ 102 then some (b.toNat - 87)
  else if 65 ≤ b && b ≤ 70 then some (b.toNat - 55)
  else none

/-- The number that digits spell, if it fits a byte.  A plus sign may stand in front. -/
def radix16? (bytes : Bytes) : Option UInt8 :=
  let digits := match bytes with
    | 43 :: d :: rest => d :: rest
    | digits => digits
  if digits.isEmpty then none
  else do
    let value ← digits.foldlM (fun value b => do
      let value := 16 * value + (← digit16? b)
      if value < 256 then some value else none) 0
    return UInt8.ofNat value

/-- Read so many pairs of digits from a place on. -/
def readFrom (bytes : Bytes) (place : Nat) : Nat → Except BadSlice (Option Bytes)
  | 0 => .ok (some [])
  | n + 1 => do
    let pair ← bytes.slice place (place + 2)
    match radix16? pair with
    | none => return none
    | some byte => return (← readFrom bytes (place + 2) n).map (byte :: ·)

def readHex (text : String) : Except BadSlice (Option Digest) := do
  let bytes := Bytes.ofText text
  if bytes.length ≠ 64 || !bytes.all isHexByte then return none
  else return (← readFrom bytes 0 digestSize).bind ofBytes?

def hexByte (n : Nat) : UInt8 := (hexDigit n).val.toUInt8

theorem hexByte_spec : ∀ n < 16, isHexByte (hexByte n) = true ∧ hexByte n < 128 := by decide

theorem exists_of_isHexByte {b : UInt8} (h : isHexByte b = true) : ∃ n < 16, b = hexByte n := by
  have hall : ∀ k < 256, isHexByte (UInt8.ofNat k) = true → ∃ n < 16, UInt8.ofNat k = hexByte n := by
    decide +kernel
  have hb := hall b.toNat b.toNat_lt
  rw [UInt8.ofNat_toNat] at hb
  exact hb h

theorem radix16?_pair : ∀ hi < 16, ∀ lo < 16,
    radix16? [hexByte hi, hexByte lo] = some (UInt8.ofNat (16 * hi + lo)) := by decide +kernel

/-- Reading by slices is reading by characters, and no slice fails. -/
theorem readFrom_eq (done : List Nat) {rest : List Nat} {n : Nat} (hdigits : ∀ k ∈ done ++ rest, k < 16)
    (hlength : rest.length = 2 * n) :
    readFrom ((done ++ rest).map hexByte) done.length n = .ok (bytesOfHex? (rest.map hexDigit)) := by
  -- on the pairs to come; the text stays whole, and what has been read moves to `done`
  induction n generalizing done rest with
  | zero =>
    rw [List.eq_nil_of_length_eq_zero hlength]
    rfl
  | succ n ih =>
    obtain ⟨hi, lo, rest, rfl⟩ : ∃ hi lo rest', rest = hi :: lo :: rest' := by
      match rest, hlength with
      | hi :: lo :: rest', _ => exact ⟨hi, lo, rest', rfl⟩
    have hhi : hi < 16 := hdigits hi (by simp)
    have hlo : lo < 16 := hdigits lo (by simp)
    have hslice : Bytes.slice ((done ++ hi :: lo :: rest).map hexByte) done.length (done.length + 2) =
        .ok [hexByte hi, hexByte lo] := by
      rw [Bytes.slice_of_small ?_ (Nat.le_add_right _ _) ?_]
      · simp
      · exact List.forall_mem_map.mpr fun k hk => (hexByte_spec k (hdigits k hk)).2
      · simp
    have hrest : readFrom ((done ++ hi :: lo :: rest).map hexByte) (done.length + 2) n =
        .ok (bytesOfHex? (rest.map hexDigit)) := by
      have hsplit : done ++ hi :: lo :: rest = done ++ [hi, lo] ++ rest := by simp
      rw [hsplit] at hdigits ⊢
      rw [List.length_cons, List.length_cons] at hlength
      have hread := ih (done ++ [hi, lo]) hdigits (by omega)
      rwa [List.length_append] at hread
    rw [readFrom, hslice]
    simp only [bind, Except.bind, radix16?_pair hi hhi lo hlo, hrest, List.map_cons, bytesOfHex?,
      hexValue?_hexDigit hi hhi, hexValue?_hexDigit lo hlo]
    cases bytesOfHex? (rest.map hexDigit) <;> rfl

theorem exists_digits {bytes : Bytes} (h : bytes.all isHexByte = true) :
    ∃ digits : List Nat, (∀ n ∈ digits, n < 16) ∧ bytes = digits.map hexByte := by
  induction bytes with
  | nil => exact ⟨[], by simp, rfl⟩
  | cons b rest ih =>
    rw [List.all_cons, Bool.and_eq_true] at h
    obtain ⟨n, hn, rfl⟩ := exists_of_isHexByte h.1
    obtain ⟨digits, hdigits, rfl⟩ := ih h.2
    exact ⟨n :: digits, List.forall_mem_cons.mpr ⟨hn, hdigits⟩, rfl⟩

/-- The bytes of digits are the text of these digits. -/
theorem eq_of_ofText_eq {text : String} {digits : List Nat} (hdigits : ∀ n ∈ digits, n < 16)
    (h : Bytes.ofText text = digits.map hexByte) : text = String.ofList (digits.map hexDigit) := by
  apply Bytes.ofText_injective
  rw [h, Bytes.ofText_ofList, List.map_map]
  · rfl
  · exact List.forall_mem_map.mpr fun n hn => (hexDigit_plain n (hdigits n hn)).1

theorem ofText_toHex (d : Digest) : Bytes.ofText d.toHex = (hexChars d.bytes).map (·.val.toUInt8) :=
  Bytes.ofText_ofList fun _ hc => (plain_of_mem_hexChars hc).1

theorem guard_toHex (d : Digest) :
    (Bytes.ofText d.toHex).length = 64 ∧ (Bytes.ofText d.toHex).all isHexByte = true := by
  rw [ofText_toHex, List.length_map, length_hexChars, d.length_bytes, List.all_map, List.all_eq_true]
  refine ⟨rfl, ?_⟩
  intro c hc
  obtain ⟨n, hn, rfl⟩ := exists_of_mem_hexChars hc
  exact (hexByte_spec n hn).1

/-- Reading by slices never fails, and is reading by characters. -/
theorem readHex_eq (text : String) : readHex text = .ok (ofHex? text) := by
  rw [readHex]
  split
  · rename_i hrefused
    have hnone : ofHex? text = none := by
      cases hread : ofHex? text with
      | none => rfl
      | some d =>
        -- the text of a digest is not refused
        rw [ofHex?_eq_some_iff] at hread
        obtain ⟨hlength, hall⟩ := guard_toHex d
        rw [hread, hlength, hall] at hrefused
        cases hrefused
    rw [hnone]
    rfl
  · rename_i htaken
    simp only [Bool.or_eq_true, decide_eq_true_eq, Bool.not_eq_true', not_or, Bool.not_eq_false,
      ne_eq, not_not] at htaken
    obtain ⟨hlength, hall⟩ := htaken
    obtain ⟨digits, hdigits, hbytes⟩ := exists_digits hall
    rw [hbytes, List.length_map] at hlength
    have hread : readFrom (digits.map hexByte) 0 digestSize = .ok (bytesOfHex? (digits.map hexDigit)) :=
      readFrom_eq [] hdigits hlength
    rw [hbytes, hread, ofHex?, eq_of_ofText_eq hdigits hbytes, String.toList_ofList]
    rfl

/-! ### The text as it is printed -/

/-- A byte in hexadecimal, with a zero in front if it takes one digit only. -/
def padded (b : UInt8) : String := String.ofList ((Nat.toDigits 16 b.toNat).leftpad 2 '0')

def display (d : Digest) : String := d.bytes.foldl (fun text b => text ++ padded b) ""

theorem padded_eq (b : UInt8) :
    padded b = String.ofList [hexDigit (b.toNat / 16), hexDigit (b.toNat % 16)] := by
  have hall : ∀ n < 256, (Nat.toDigits 16 n).leftpad 2 '0' = [hexDigit (n / 16), hexDigit (n % 16)] := by
    decide +kernel
  rw [padded, hall b.toNat b.toNat_lt]

theorem foldl_padded (text : String) (bytes : Bytes) :
    bytes.foldl (fun text b => text ++ padded b) text = text ++ String.ofList (hexChars bytes) := by
  induction bytes generalizing text with
  | nil => exact (String.append_empty).symm
  | cons b rest ih =>
    rw [List.foldl_cons, ih, padded_eq, String.append_assoc, ← String.ofList_append]
    rfl

theorem display_eq (d : Digest) : d.display = d.toHex := by
  rw [display, foldl_padded, String.empty_append, toHex]

/-! ### The order of texts -/

theorem compare_hexByte : ∀ m < 16, ∀ n < 16, compare (hexByte m) (hexByte n) = compare m n := by decide

theorem hexDigit_lt_iff : ∀ m < 16, ∀ n < 16, (hexDigit m < hexDigit n ↔ m < n) := by decide

theorem hexDigit_eq_iff : ∀ m < 16, ∀ n < 16, (hexDigit m = hexDigit n ↔ m = n) := by decide

/-- Bytes are compared by their high halves, then by their low ones. -/
theorem compare_halves (x y : UInt8) :
    compare x y = (compare (x.toNat / 16) (y.toNat / 16)).then (compare (x.toNat % 16) (y.toNat % 16)) := by
  have hnat : compare x y = compare x.toNat y.toNat := by
    simp only [compare, compareOfLessAndEq, UInt8.lt_iff_toNat_lt, ← UInt8.toNat_inj]
  rw [hnat]
  rcases Nat.lt_trichotomy (x.toNat / 16) (y.toNat / 16) with hhigh | hhigh | hhigh
  · rw [Nat.compare_eq_lt.mpr hhigh, Nat.compare_eq_lt.mpr (by omega)]
    rfl
  · have hless : x.toNat < y.toNat ↔ x.toNat % 16 < y.toNat % 16 := by omega
    have hmore : y.toNat < x.toNat ↔ y.toNat % 16 < x.toNat % 16 := by omega
    rw [Nat.compare_eq_eq.mpr hhigh, Ordering.eq_then, Nat.compare_eq_ite_lt, Nat.compare_eq_ite_lt]
    simp only [hless, hmore]
  · rw [Nat.compare_eq_gt.mpr hhigh, Nat.compare_eq_gt.mpr (by omega)]
    rfl

theorem compare_hexChars (xs ys : Bytes) :
    compare ((hexChars xs).map (·.val.toUInt8)) ((hexChars ys).map (·.val.toUInt8)) = compare xs ys := by
  induction xs generalizing ys with
  | nil => cases ys <;> rfl
  | cons x xs ih =>
    cases ys with
    | nil => rfl
    | cons y ys =>
      have hx := x.toNat_lt
      have hy := y.toNat_lt
      have hhigh := compare_hexByte (x.toNat / 16) (by omega) (y.toNat / 16) (by omega)
      have hlow := compare_hexByte (x.toNat % 16) (by omega) (y.toNat % 16) (by omega)
      rw [hexByte, hexByte] at hhigh hlow
      simp only [hexChars, List.map_cons, List.compare_cons_cons, hhigh, hlow, ih, compare_halves x y,
        Ordering.then_assoc]

theorem hexChars_lt_iff (xs ys : Bytes) : hexChars xs < hexChars ys ↔ compare xs ys = .lt := by
  induction xs generalizing ys with
  | nil =>
    cases ys with
    | nil => simp [hexChars]
    | cons y ys => simp [hexChars]
  | cons x xs ih =>
    cases ys with
    | nil => simp [hexChars]
    | cons y ys =>
      have hx := x.toNat_lt
      have hy := y.toNat_lt
      rw [hexChars, hexChars, List.cons_lt_cons_iff, List.cons_lt_cons_iff, ih,
        hexDigit_lt_iff _ (by omega) _ (by omega), hexDigit_lt_iff _ (by omega) _ (by omega),
        hexDigit_eq_iff _ (by omega) _ (by omega), hexDigit_eq_iff _ (by omega) _ (by omega),
        List.compare_cons_cons, compare_halves, Ordering.then_assoc, Ordering.then_eq_lt,
        Ordering.then_eq_lt, Nat.compare_eq_lt, Nat.compare_eq_lt, Nat.compare_eq_eq, Nat.compare_eq_eq]

/-- Texts are compared as bytes, and as digests. -/
theorem compare_ofText_toHex (d e : Digest) :
    compare (Bytes.ofText d.toHex) (Bytes.ofText e.toHex) = compare d e := by
  rw [ofText_toHex, ofText_toHex, compare_hexChars, compare_eq]

theorem toHex_le_iff (d e : Digest) : d.toHex ≤ e.toHex ↔ (compare d e).isLE = true := by
  have hswap : compare d e = (compare e d).swap := Std.OrientedCmp.eq_swap
  rw [← String.not_lt, String.lt_iff, toHex, toHex, String.toList_ofList, String.toList_ofList,
    hexChars_lt_iff, ← compare_eq, hswap]
  cases compare e d <;> simp

/-- **A digest and its text.**  Every digest has one text, which is the one that is
    printed, and only that text is read as the digest.  Reading gives an answer for
    every text, however its bytes are cut.  Digests are in the order of their texts. -/
theorem text_encodes_in_order :
    (∀ d : Digest, ofHex? d.toHex = some d ∧ d.display = d.toHex ∧ toString d = d.toHex) ∧
    (∀ text, readHex text = .ok (ofHex? text) ∧ ∀ d, ofHex? text = some d ↔ text = d.toHex) ∧
    ∀ d e : Digest, ((compare d e).isLE = true ↔ d.toHex ≤ e.toHex) ∧
      compare (Bytes.ofText d.toHex) (Bytes.ofText e.toHex) = compare d e := by
  refine ⟨?_, ?_, ?_⟩
  · intro d
    exact ⟨ofHex?_eq_some_iff.mpr rfl, display_eq d, rfl⟩
  · intro text
    exact ⟨readHex_eq text, fun d => ofHex?_eq_some_iff⟩
  · intro d e
    exact ⟨(toHex_le_iff d e).symm, compare_ofText_toHex d e⟩

end Digest

end DedupArchive
