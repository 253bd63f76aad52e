/-
  DedupArchive/Reading/Reader.lean
  ================================
  **Readers.**

  A reader is asked for at most so many bytes and gives some, or fails.  No
  bytes mean that it has come to an end.  What a reader still has to say is
  finite: bytes it gives and failures it reports are taken from what remains,
  which is why reading to the end is a terminating loop.
-/
import DedupArchive.Bytes
import DedupArchive.IoError

namespace DedupArchive

/-- How much an outcome of a read takes from what remains. -/
def ReadOutcome.weight : Except IoError Bytes → Nat
  | .ok data => data.length
  | .error _ => 1

/-- A source of bytes.  What it has still to say is bounded, and what it says is taken
    from that. -/
class Reader (ρ : Type) where
  read : ρ → Nat → Except IoError Bytes × ρ
  remaining : ρ → Nat
  remaining_read : ∀ r n, remaining (read r n).2 + ReadOutcome.weight (read r n).1 ≤ remaining r

namespace Reader

variable {ρ : Type} [Reader ρ]

theorem remaining_of_data {r : ρ} {n : Nat} {b : UInt8} {data : Bytes}
    (h : (read r n).1 = .ok (b :: data)) :
    remaining (read r n).2 < remaining r := by
  have := remaining_read r n
  simp only [h, ReadOutcome.weight, List.length_cons] at this
  omega

theorem remaining_of_failure {r : ρ} {n : Nat} {e : IoError} (h : (read r n).1 = .error e) :
    remaining (read r n).2 < remaining r := by
  have := remaining_read r n
  simp only [h, ReadOutcome.weight] at this
  omega

/-- Read until the end or a failure, in pieces of at most `size + 1` bytes.
    `taken` holds what has been read, last byte first. -/
def drain (size : Nat) (r : ρ) (taken : Bytes) : Bytes × Option IoError × ρ :=
  match _h : (read r (size + 1)).1 with
  | .ok [] => (taken.reverse, none, (read r (size + 1)).2)
  | .ok (b :: data) => drain size (read r (size + 1)).2 ((b :: data).reverseAux taken)
  | .error e =>
    if e.kind = .interrupted then drain size (read r (size + 1)).2 taken
    else (taken.reverse, some e, (read r (size + 1)).2)
termination_by remaining r
decreasing_by
  · exact remaining_of_data _h
  · exact remaining_of_failure _h

def readToEnd (r : ρ) : Bytes × Option IoError × ρ := drain 8191 r []

end Reader

end DedupArchive
