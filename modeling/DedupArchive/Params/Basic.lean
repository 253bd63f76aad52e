/-
  DedupArchive/Params/Basic.lean
  ==============================
  **Chunking parameters.**

  A cut falls after a byte when the fingerprint of the last `window` bytes ends
  in `maskBits` zero bits.  No cut falls before `minSize` bytes, and one is
  forced at `maxSize` bytes.  Parameters need not be valid to be used: `width`
  and `mask` give every choice a meaning, and `validate` says which choices a
  store accepts and why it refuses the others.
-/

namespace DedupArchive

/-- How a byte string is cut into chunks; with `hashing` these carry their digests. -/
structure Params where
  window : UInt64
  maskBits : UInt32
  multiplier : UInt32
  minSize : UInt64
  maxSize : Option UInt64
  hashing : Bool
deriving DecidableEq, Repr

inductive ParamsError where
  | zeroWindow
  | maskBitsOutOfRange
  | zeroMaxSize
  | minAboveMax
deriving DecidableEq, Repr

def ParamsError.message : ParamsError → String
  | .zeroWindow => "window size must be non-zero"
  | .maskBitsOutOfRange => "mask bits must be between 1 and 32"
  | .zeroMaxSize => "max_size must be non-zero"
  | .minAboveMax => "min_size cannot be greater than max_size"

namespace Params

def defaultWindow : UInt64 := 48
def defaultMaskBits : UInt32 := 16
def defaultMultiplier : UInt32 := 1103515245
def defaultMinSize : UInt64 := 16384
def defaultMaxSize : UInt64 := 262144

/-- Chunks of about 64 KiB, between 16 KiB and 256 KiB. -/
def standard : Params where
  window := defaultWindow
  maskBits := defaultMaskBits
  multiplier := defaultMultiplier
  minSize := defaultMinSize
  maxSize := some defaultMaxSize
  hashing := true

/-- The first reason to refuse the parameters, if there is one. -/
def validate (p : Params) : Except ParamsError Unit :=
  if p.window = 0 then .error .zeroWindow
  else if p.maskBits = 0 ∨ 32 < p.maskBits then .error .maskBitsOutOfRange
  else
    match p.maxSize with
    | none => .ok ()
    | some max =>
      if max = 0 then .error .zeroMaxSize
      else if max < p.minSize then .error .minAboveMax
      else .ok ()

def unbounded (window : UInt64) (maskBits : UInt32) : Except ParamsError Params :=
  let p : Params := ⟨window, maskBits, defaultMultiplier, 0, none, true⟩
  p.validate.map fun _ => p

/-- The window in effect: at least one byte. -/
def width (p : Params) : Nat := max p.window.toNat 1

/-- The bits of a fingerprint that are zero at a cut. -/
def mask (p : Params) : UInt32 :=
  if p.maskBits < 32 then (1 <<< p.maskBits) - 1 else 0xFFFFFFFF

theorem width_pos (p : Params) : 0 < p.width := Nat.lt_of_lt_of_le Nat.one_pos (Nat.le_max_right ..)

end Params

end DedupArchive
