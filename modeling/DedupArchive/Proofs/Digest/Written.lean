/-
  DedupArchive/Proofs/Digest/Written.lean
  =======================================
  **A digest has one written form.**

  Reading the written form gives the digest back, and only the written form of a
  digest is read as that digest.
-/
import DedupArchive.Digest.Hex
import Mathlib.Data.UInt

namespace DedupArchive.Digest

/-! ### Digits -/

theorem hexValue?_hexDigit : ∀ n < 16, hexValue? (hexDigit n) = some n := by decide

/-- Only a digit is read as a number, and as its own. -/
theorem hexDigit_of_hexValue? {c : Char} {n : Nat} (h : hexValue? c = some n) :
    n < 16 ∧ hexDigit n = c := by
  have hrange (lo hi : Char) : lo ≤ c ∧ c ≤ hi ↔ lo.toNat ≤ c.toNat ∧ c.toNat ≤ hi.toNat := Iff.rfl
  have hletter : 'a'.toNat = 97 ∧ 'f'.toNat = 102 ∧ '0'.toNat = 48 ∧ '9'.toNat = 57 := by decide
  have hback : Char.ofNat c.toNat = c := Char.ofNat_toNat c
  rw [hexValue?] at h
  simp only [hrange, hletter] at h
  by_cases hdigit : 48 ≤ c.toNat ∧ c.toNat ≤ 57
  · rw [if_pos hdigit, Option.some.injEq] at h
    have hcode : 48 + n = c.toNat := by omega
    refine ⟨by omega, ?_⟩
    rw [hexDigit, if_pos (by omega), hcode, hback]
  · rw [if_neg hdigit] at h
    by_cases hlow : 97 ≤ c.toNat ∧ c.toNat ≤ 102
    · rw [if_pos hlow, Option.some.injEq] at h
      have hcode : 87 + n = c.toNat := by omega
      refine ⟨by omega, ?_⟩
      rw [hexDigit, if_neg (by omega), hcode, hback]
    · rw [if_neg hlow] at h
      cases h

/-! ### Bytes -/

theorem bytesOfHex?_hexChars (bytes : Bytes) : bytesOfHex? (hexChars bytes) = some bytes := by
  induction bytes with
  | nil => rfl
  | cons b rest ih =>
    have hlt := b.toNat_lt
    have hparts : 16 * (b.toNat / 16) + b.toNat % 16 = b.toNat := Nat.div_add_mod _ _
    rw [hexChars, bytesOfHex?, hexValue?_hexDigit _ (by omega), hexValue?_hexDigit _ (by omega), ih]
    simp only [hparts, UInt8.ofNat_toNat]

theorem hexChars_of_bytesOfHex? {chars : List Char} {bytes : Bytes}
    (h : bytesOfHex? chars = some bytes) : chars = hexChars bytes := by
  fun_induction bytesOfHex? chars generalizing bytes with
  | case1 =>
    cases h
    rfl
  | case2 => cases h
  | case3 c d rest hi lo tail htail hhi hlo ih =>
    cases h
    obtain ⟨hhi, hc⟩ := hexDigit_of_hexValue? hhi
    obtain ⟨hlo, hd⟩ := hexDigit_of_hexValue? hlo
    have hbyte : (UInt8.ofNat (16 * hi + lo)).toNat = 16 * hi + lo := by
      rw [UInt8.toNat_ofNat']
      omega
    have hhigh : (16 * hi + lo) / 16 = hi := by omega
    have hlow : (16 * hi + lo) % 16 = lo := by omega
    rw [hexChars, hbyte, hhigh, hlow, hc, hd, ← ih htail]
  | case4 => cases h

/-! ### As a name -/

theorem hexDigit_plain : ∀ n < 16, (hexDigit n).utf8Size = 1 ∧ hexDigit n ≠ '\x00' := by decide

theorem exists_of_mem_hexChars {bytes : Bytes} {c : Char} (h : c ∈ hexChars bytes) :
    ∃ n < 16, c = hexDigit n := by
  induction bytes with
  | nil => cases h
  | cons b rest ih =>
    have hlt := b.toNat_lt
    rw [hexChars, List.mem_cons, List.mem_cons] at h
    rcases h with rfl | rfl | h
    · exact ⟨_, by omega, rfl⟩
    · exact ⟨_, by omega, rfl⟩
    · exact ih h

theorem plain_of_mem_hexChars {bytes : Bytes} {c : Char} (h : c ∈ hexChars bytes) :
    c.utf8Size = 1 ∧ c ≠ '\x00' := by
  obtain ⟨n, hn, rfl⟩ := exists_of_mem_hexChars h
  exact hexDigit_plain n hn

theorem length_hexChars (bytes : Bytes) : (hexChars bytes).length = 2 * bytes.length := by
  induction bytes with
  | nil => rfl
  | cons b rest ih =>
    rw [hexChars, List.length_cons, List.length_cons, List.length_cons, ih]
    omega

/-- Characters of one byte each make a text of as many bytes. -/
theorem utf8ByteSize_ofList {chars : List Char} (h : ∀ c ∈ chars, c.utf8Size = 1) :
    (String.ofList chars).utf8ByteSize = chars.length := by
  rw [← String.size_toByteArray, String.toByteArray_ofList]
  induction chars with
  | nil => rfl
  | cons c rest ih =>
    rw [List.utf8Encode_cons, ByteArray.size_append, ih fun c hc => h c (List.mem_cons_of_mem _ hc),
      List.utf8Encode_singleton, List.size_toByteArray, String.length_utf8EncodeChar,
      h c List.mem_cons_self, List.length_cons, Nat.add_comm]

/-! ### Digests -/

theorem utf8ByteSize_toHex (d : Digest) : d.toHex.utf8ByteSize = 64 := by
  rw [toHex, utf8ByteSize_ofList fun c hc => (plain_of_mem_hexChars hc).1, length_hexChars,
    d.length_bytes]
  rfl

theorem nul_notMem_toHex (d : Digest) : '\x00' ∉ d.toHex.toList := by
  rw [toHex, String.toList_ofList]
  exact fun h => (plain_of_mem_hexChars h).2 rfl

theorem ofHex?_eq_some_iff {text : String} {d : Digest} : ofHex? text = some d ↔ text = d.toHex := by
  rw [ofHex?, Option.bind_eq_some_iff]
  constructor
  · rintro ⟨bytes, hbytes, hd⟩
    rw [ofBytes?] at hd
    split at hd
    · cases hd
      rw [toHex, ← hexChars_of_bytesOfHex? hbytes, String.ofList_toList]
    · cases hd
  · rintro rfl
    refine ⟨d.bytes, ?_, ?_⟩
    · rw [toHex, String.toList_ofList, bytesOfHex?_hexChars]
    · rw [ofBytes?, dif_pos d.length_bytes]

theorem toHex_injective {d e : Digest} (h : d.toHex = e.toHex) : d = e := by
  have hread := ofHex?_eq_some_iff.mpr h
  rw [ofHex?_eq_some_iff.mpr rfl, Option.some.injEq] at hread
  exact hread

end DedupArchive.Digest
