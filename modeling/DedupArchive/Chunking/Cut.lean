/-
  DedupArchive/Chunking/Cut.lean
  ==============================
  **Where a byte string is cut, said directly.**

  Positions are scanned in order, and a position is cut by three things alone:
  the distance from the last cut, the window of bytes before it, and the
  parameters.  The fingerprint is taken afresh at every position.  The
  detector finds the same cuts with a running fingerprint.
-/
import DedupArchive.Chunking.Fingerprint

namespace DedupArchive

def windowBefore (p : Params) (data : Bytes) (position : Nat) : Bytes :=
  (data.drop (position - p.width)).take p.width

/-- Whether the window before a position is full and its fingerprint ends in zeros. -/
def matchesAt (p : Params) (data : Bytes) (position : Nat) : Bool :=
  p.width ≤ position && fingerprint p.multiplier (windowBefore p data position) &&& p.mask == 0

/-- Whether a position is cut, given the last cut before it. -/
def cutsAt (p : Params) (data : Bytes) (last position : Nat) : Bool :=
  p.minSize.toNat ≤ position - last &&
    (p.maxSize.any (·.toNat ≤ position - last) || matchesAt p data position)

/-- The cuts among the `count` positions after `position`. -/
def cutsFrom (p : Params) (data : Bytes) (last position : Nat) : (count : Nat) → List Nat
  | 0 => []
  | count + 1 =>
    if cutsAt p data last (position + 1) then
      (position + 1) :: cutsFrom p data (position + 1) (position + 1) count
    else cutsFrom p data last (position + 1) count

def cuts (p : Params) (data : Bytes) : List Nat := cutsFrom p data 0 0 data.length

/-- The pieces between a position and the cuts after it, each with where it
    starts; what follows the last cut is a piece too unless it is empty. -/
def piecesFrom (data : Bytes) (position : Nat) : List Nat → List (Nat × Bytes)
  | [] => if position < data.length then [(position, data.drop position)] else []
  | cut :: rest =>
    (position, (data.drop position).take (cut - position)) :: piecesFrom data cut rest

def pieces (p : Params) (data : Bytes) : List (Nat × Bytes) := piecesFrom data 0 (cuts p data)

end DedupArchive
