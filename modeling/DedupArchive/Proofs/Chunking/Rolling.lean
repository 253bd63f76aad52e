/-
  DedupArchive/Proofs/Chunking/Rolling.lean
  =========================================
  **Moving a window by one byte.**

  A byte that enters at the end multiplies what is there once more; a byte that
  leaves at the front takes its weight with it.  Together that is `Roller.advance`.
-/
import DedupArchive.Chunking.Fingerprint

namespace DedupArchive

variable (a : UInt32)

theorem fingerprint_concat (window : Bytes) (b : UInt8) :
    fingerprint a (window ++ [b]) = fingerprint a window * a + b.toUInt32 := by
  simp only [fingerprint, List.foldl_append, List.foldl_cons, List.foldl_nil]

/-- **Rolling is rehashing.**  Advancing the fingerprint of a full window gives
    the fingerprint of the window one byte further on. -/
theorem Roller.advance_fingerprint (r : Roller) (leaving entering : UInt8) (rest : Bytes)
    (hwidth : rest.length + 1 = r.width) :
    r.advance (fingerprint r.multiplier (leaving :: rest)) leaving entering =
      fingerprint r.multiplier (rest ++ [entering]) := by
  have htop : r.top = r.multiplier ^ rest.length := by
    rw [r.top_eq, ← hwidth, Nat.add_sub_cancel]
  rw [Roller.advance, fingerprint_concat, fingerprint_cons, htop]
  grind

end DedupArchive
