/-
  DedupArchive/Chunking/Detector.lean
  ===================================
  **Finding cuts one byte at a time.**

  A detector keeps the last bytes of the stream in a ring and their fingerprint
  beside it.  The window runs on across cuts: whether a position is a cut
  depends on the bytes before it and on the distance from the last cut, not on
  where the window was at that cut.  A restart forgets the stream but leaves the
  ring as it is; nothing reads a slot that the new stream has not filled.
-/
import DedupArchive.Chunking.Fingerprint

namespace DedupArchive

/-- A detector in the middle of a stream.  While the window fills, its bytes are in
    the slots `0, 1, …`; from then on `head` is the slot of the oldest byte, and
    `value` the fingerprint of the window. -/
structure Detector where
  roller : Roller
  mask : UInt32
  minSize : Nat
  maxSize : Option Nat
  ring : Vector UInt8 roller.width
  head : Fin roller.width
  filled : Nat
  value : UInt32
  sinceCut : Nat

namespace Detector

def start (p : Params) : Detector where
  roller := .ofWidth p.width p.multiplier p.width_pos
  mask := p.mask
  minSize := p.minSize.toNat
  maxSize := p.maxSize.map UInt64.toNat
  ring := Vector.replicate p.width 0
  head := ⟨0, p.width_pos⟩
  filled := 0
  value := 0
  sinceCut := 0

def restart (d : Detector) : Detector :=
  { d with head := ⟨0, d.roller.width_pos⟩, filled := 0, value := 0, sinceCut := 0 }

def isReady (d : Detector) : Bool := d.filled == d.roller.width

def slide : Detector → UInt8 → Detector
  | ⟨roller, mask, minSize, maxSize, ring, head, filled, value, sinceCut⟩, byte =>
    if h : filled < roller.width then
      let ring := ring.set filled byte
      let value :=
        if filled + 1 = roller.width then fingerprint roller.multiplier ring.toList else value
      ⟨roller, mask, minSize, maxSize, ring, head, filled + 1, value, sinceCut⟩
    else
      let value := roller.advance value ring[head] byte
      let next := ⟨(head.val + 1) % roller.width, Nat.mod_lt _ roller.width_pos⟩
      ⟨roller, mask, minSize, maxSize, ring.set head byte, next, filled, value, sinceCut⟩

/-- Whether a cut falls here: never below the shortest size, always at the
    longest, and in between where the fingerprint of a full window ends in zeros. -/
def isCut (d : Detector) : Bool :=
  d.minSize ≤ d.sinceCut &&
    (d.maxSize.any (· ≤ d.sinceCut) || (d.isReady && d.value &&& d.mask == 0))

def take (d : Detector) (byte : UInt8) : Detector × Bool :=
  let d := d.slide byte
  let d := { d with sinceCut := d.sinceCut + 1 }
  if d.isCut then ({ d with sinceCut := 0 }, true) else (d, false)

end Detector

end DedupArchive
