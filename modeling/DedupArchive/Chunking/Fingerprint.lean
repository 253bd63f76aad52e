/-
  DedupArchive/Chunking/Fingerprint.lean
  ======================================
  **The rolling fingerprint of a window of bytes.**

  The fingerprint of bytes `b₀ … bₙ₋₁` with multiplier `a` is the polynomial
  `a^(n-1)·b₀ + … + a·bₙ₋₂ + bₙ₋₁` modulo 2^32.  `fingerprint` evaluates it from
  scratch by Horner's rule, `weightedSum` term by term, and `Roller.hashByTable`
  with the powers of `a` from a table; all three agree.  `Roller.advance` moves the
  window by one byte in constant time: the leading term goes, the rest gains a
  factor `a`, the new byte is added.
-/
import DedupArchive.Bytes
import DedupArchive.Chunking.Error

namespace DedupArchive

/-- The fingerprint of a window, by Horner's rule. -/
def fingerprint (multiplier : UInt32) (window : Bytes) : UInt32 :=
  window.foldl (fun acc b => acc * multiplier + b.toUInt32) 0

/-- The fingerprint of a window, term by term. -/
def weightedSum (multiplier : UInt32) : Bytes → UInt32
  | [] => 0
  | b :: rest => multiplier ^ rest.length * b.toUInt32 + weightedSum multiplier rest

/-- Going on from a value weighs that value with one factor for each byte. -/
theorem foldl_fingerprint (a value : UInt32) (window : Bytes) :
    window.foldl (fun acc b => acc * a + b.toUInt32) value =
      a ^ window.length * value + fingerprint a window := by
  induction window generalizing value with
  | nil =>
    show value = a ^ 0 * value + 0
    rw [UInt32.pow_zero, UInt32.one_mul, UInt32.add_zero]
  | cons b rest ih =>
    have hfresh : fingerprint a (b :: rest) = a ^ rest.length * (0 * a + b.toUInt32) +
        fingerprint a rest := ih (0 * a + b.toUInt32)
    rw [List.foldl_cons, ih, hfresh, List.length_cons, UInt32.pow_succ]
    grind

theorem fingerprint_cons (a : UInt32) (b : UInt8) (rest : Bytes) :
    fingerprint a (b :: rest) = a ^ rest.length * b.toUInt32 + fingerprint a rest := by
  have h : fingerprint a (b :: rest) = a ^ rest.length * (0 * a + b.toUInt32) +
      fingerprint a rest := foldl_fingerprint a (0 * a + b.toUInt32) rest
  rw [h, UInt32.zero_mul, UInt32.zero_add]

theorem fingerprint_eq_weightedSum (a : UInt32) (window : Bytes) :
    fingerprint a window = weightedSum a window := by
  induction window with
  | nil => rfl
  | cons b rest ih => rw [fingerprint_cons, ih, weightedSum]

def power (a : UInt32) (n : Nat) : UInt32 := Nat.repeat (· * a) n 1

theorem power_eq_pow (a : UInt32) (n : Nat) : power a n = a ^ n := by
  induction n with
  | zero => rfl
  | succ n ih => rw [UInt32.pow_succ, ← ih]; rfl

/-- Fingerprints of windows of one width; `top` is the weight of the byte that leaves. -/
structure Roller where
  width : Nat
  multiplier : UInt32
  top : UInt32
  width_pos : 0 < width
  top_eq : top = multiplier ^ (width - 1)

namespace Roller

def ofWidth (width : Nat) (multiplier : UInt32) (width_pos : 0 < width) : Roller where
  width := width
  multiplier := multiplier
  top := power multiplier (width - 1)
  width_pos := width_pos
  top_eq := power_eq_pow ..

/-- Fingerprints of windows of the given width; a width of zero is refused. -/
def new (width : Nat) (multiplier : UInt32) : Except ChunkError Roller :=
  if h : 0 < width then .ok (ofWidth width multiplier h) else .error (.invalidParams .zeroWindow)

def standard : Roller := ofWidth Params.defaultWindow.toNat Params.defaultMultiplier (by decide)

def hash (r : Roller) (data : Bytes) : Except ChunkError UInt32 :=
  if data.length < r.width then .error (.windowTooShort r.width data.length)
  else .ok (fingerprint r.multiplier (data.take r.width))

/-- The powers of the multiplier from the zeroth on, one for each byte of a window. -/
def powers (r : Roller) : List UInt32 := (List.range r.width).map (power r.multiplier)

def addWeighted (sum : UInt32) (pairs : List (UInt8 × UInt32)) : UInt32 :=
  pairs.foldl (fun sum pair => sum + pair.2 * pair.1.toUInt32) sum

/-- The fingerprint of the first `width` bytes, with powers from the table. -/
def hashByTable (r : Roller) (data : Bytes) : Except ChunkError UInt32 :=
  if data.length < r.width then .error (.windowTooShort r.width data.length)
  else .ok (addWeighted 0 ((data.take r.width).zip r.powers.reverse))

theorem addWeighted_powers (a sum : UInt32) (window : Bytes) :
    addWeighted sum (window.zip ((List.range window.length).map (power a)).reverse) =
      sum + weightedSum a window := by
  induction window generalizing sum with
  | nil => exact (UInt32.add_zero sum).symm
  | cons b rest ih =>
    have htop : ((List.range (rest.length + 1)).map (power a)).reverse =
        a ^ rest.length :: ((List.range rest.length).map (power a)).reverse := by
      rw [List.range_succ, List.map_append, List.reverse_append, ← power_eq_pow]
      rfl
    rw [List.length_cons, htop, List.zip_cons_cons, weightedSum, ← UInt32.add_assoc, ← ih]
    rfl

theorem hashByTable_eq (r : Roller) (data : Bytes) : r.hashByTable data = r.hash data := by
  rw [hashByTable, hash]
  split
  · rfl
  · rename_i hlong
    have hlength : (data.take r.width).length = r.width :=
      List.length_take_of_le (Nat.le_of_not_lt hlong)
    have hsum := addWeighted_powers r.multiplier 0 (data.take r.width)
    rw [hlength, UInt32.zero_add, ← fingerprint_eq_weightedSum] at hsum
    rw [powers, hsum]

def advance (r : Roller) (value : UInt32) (leaving entering : UInt8) : UInt32 :=
  (value - r.top * leaving.toUInt32) * r.multiplier + entering.toUInt32

/-- Move the window by one byte and note its fingerprint.  The latest one is
    noted first. -/
def note (r : Roller) (noted : UInt32 × List UInt32) (move : UInt8 × UInt8) :
    UInt32 × List UInt32 :=
  let value := r.advance noted.1 move.1 move.2
  (value, value :: noted.2)

def hashes (r : Roller) (data : Bytes) : Except ChunkError (List UInt32) := do
  let first ← r.hash data
  return ((data.zip (data.drop r.width)).foldl r.note (first, [first])).2.reverse

end Roller

end DedupArchive
