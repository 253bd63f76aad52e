/-
  DedupArchive/Digest/Hex.lean
  ============================
  **The written form of a digest: sixty-four lowercase hexadecimal digits.**

  Each byte is two digits, the high half first.  Only this form is read back:
  `ofHex?` refuses capitals, other characters and other lengths, so that a file
  name is a blob's name in exactly one spelling.
-/
import DedupArchive.Digest.Basic

namespace DedupArchive.Digest

def hexDigit (n : Nat) : Char := if n < 10 then Char.ofNat (48 + n) else Char.ofNat (87 + n)

def hexValue? (c : Char) : Option Nat :=
  if '0' ≤ c ∧ c ≤ '9' then some (c.toNat - 48)
  else if 'a' ≤ c ∧ c ≤ 'f' then some (c.toNat - 87)
  else none

def hexChars : Bytes → List Char
  | [] => []
  | b :: rest => hexDigit (b.toNat / 16) :: hexDigit (b.toNat % 16) :: hexChars rest

def bytesOfHex? : List Char → Option Bytes
  | [] => some []
  | [_] => none
  | c :: d :: rest =>
    match hexValue? c, hexValue? d, bytesOfHex? rest with
    | some hi, some lo, some bytes => some (UInt8.ofNat (16 * hi + lo) :: bytes)
    | _, _, _ => none

def toHex (d : Digest) : String := String.ofList (hexChars d.bytes)

def ofHex? (text : String) : Option Digest := (bytesOfHex? text.toList).bind ofBytes?

instance : ToString Digest := ⟨toHex⟩

end DedupArchive.Digest
