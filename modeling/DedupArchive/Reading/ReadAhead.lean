/-
  DedupArchive/Reading/ReadAhead.lean
  ===================================
  **Reading a source ahead in blocks.**

  The source is read in full blocks, whatever it gives at a time; interrupted
  reads are tried again.  The last block before the end or before a failure may
  be short.  A failure is passed on after the bytes that came before it, once;
  from then on the reader is at its end.

  The blocks are filled by a helper, and that it has gone is all that tells the
  end.  A helper that cannot allocate its first block goes without a word, so that
  the source seems to have ended before its first byte.
-/
import DedupArchive.Reading.Reader

namespace DedupArchive

/-- Why a block stopped filling: it is full, nothing more comes, or the source
    failed. -/
inductive BlockEnd where
  | full
  | ended
  | failed (cause : IoError)
deriving DecidableEq, Repr

def BlockEnd.weight : BlockEnd → Nat
  | .full | .ended => 0
  | .failed _ => 1

/-- A source with what is left of the block that has been read from it, and what
    comes after that block: more, the end, or a failure. -/
structure ReadAhead (ρ : Type) where
  source : ρ
  blockSize : Nat
  block : Bytes
  next : BlockEnd

namespace ReadAhead

variable {ρ : Type} [Reader ρ]

def defaultBlockSize : Nat := 8388608

/-- No allocation is longer than the largest signed word, and so no block. -/
def longestBlock : Nat := 9223372036854775807

def emptyBlocks : IoError := ⟨.invalidInput, "read-ahead block size must be non-zero"⟩

/-- Read a source ahead in blocks of the given size.  Only empty blocks are refused:
    nothing is allocated yet. -/
def new (source : ρ) (blockSize : Nat) : Except IoError (ReadAhead ρ) :=
  if blockSize = 0 then .error emptyBlocks else .ok ⟨source, blockSize, [], .full⟩

/-- Fill a block that has room for so many bytes; `taken` holds those in it,
    the last one first. -/
def fill (source : ρ) (room : Nat) (taken : Bytes) : Bytes × BlockEnd × ρ :=
  if room = 0 then (taken.reverse, .full, source)
  else
    match _h : (Reader.read source room).1 with
    | .ok [] => (taken.reverse, .ended, (Reader.read source room).2)
    | .ok (b :: data) =>
      fill (Reader.read source room).2 (room - (b :: data).length) ((b :: data).reverseAux taken)
    | .error e =>
      if e.kind = .interrupted then fill (Reader.read source room).2 room taken
      else (taken.reverse, .failed e, (Reader.read source room).2)
termination_by Reader.remaining source
decreasing_by
  · exact Reader.remaining_of_data _h
  · exact Reader.remaining_of_failure _h

/-- Allocate the next block and fill it.  A block that is too long ends the helper
    that was to fill it; the source is not read, and nothing is heard of it again. -/
def nextBlock (source : ρ) (blockSize : Nat) : Bytes × BlockEnd × ρ :=
  if longestBlock < blockSize then ([], .ended, source) else fill source blockSize []

def serve (r : ReadAhead ρ) (n : Nat) : Bytes × ReadAhead ρ :=
  (r.block.take n, { r with block := r.block.drop n })

def fetch (r : ReadAhead ρ) : ReadAhead ρ :=
  let filled := nextBlock r.source r.blockSize
  { r with block := filled.1, next := filled.2.1, source := filled.2.2 }

def report (r : ReadAhead ρ) : Except IoError Bytes × ReadAhead ρ :=
  match r.next with
  | .failed e => (.error e, { r with next := .ended })
  | _ => (.ok [], { r with next := .ended })

/-- Read at most `n` bytes; asking for none neither reads nor reports anything. -/
def read (r : ReadAhead ρ) (n : Nat) : Except IoError Bytes × ReadAhead ρ :=
  if n = 0 then (.ok [], r)
  else
    let r := if r.block.isEmpty && r.next == .full then r.fetch else r
    if r.block.isEmpty then r.report
    else
      let (data, r) := r.serve n
      (.ok data, r)

def remaining (r : ReadAhead ρ) : Nat := Reader.remaining r.source + r.block.length + r.next.weight

theorem remaining_fill (source : ρ) (room : Nat) (taken : Bytes) :
    Reader.remaining (fill source room taken).2.2 + (fill source room taken).1.length +
        (fill source room taken).2.1.weight
      ≤ Reader.remaining source + taken.length := by
  fun_induction fill source room taken with
  | case1 => simp [BlockEnd.weight]
  | case2 source room taken _ h =>
    have := Reader.remaining_read source room
    simp only [h, ReadOutcome.weight, List.length_reverse, BlockEnd.weight] at this ⊢
    omega
  | case3 source room taken _ b data h ih =>
    have := Reader.remaining_read source room
    simp only [h, ReadOutcome.weight, List.reverseAux_eq, List.length_append,
      List.length_reverse] at this ih ⊢
    omega
  | case4 source room taken _ e h _ ih =>
    have := Reader.remaining_of_failure h
    omega
  | case5 source room taken _ e h _ =>
    have := Reader.remaining_of_failure h
    simp only [List.length_reverse, BlockEnd.weight]
    omega

theorem remaining_nextBlock (source : ρ) (blockSize : Nat) :
    Reader.remaining (nextBlock source blockSize).2.2 + (nextBlock source blockSize).1.length +
        (nextBlock source blockSize).2.1.weight
      ≤ Reader.remaining source := by
  unfold nextBlock
  split
  · exact Nat.le_refl _
  · exact remaining_fill source blockSize []

theorem remaining_fetch (r : ReadAhead ρ) : r.fetch.remaining ≤ r.remaining := by
  have := remaining_nextBlock r.source r.blockSize
  simp only [fetch, remaining]
  omega

theorem remaining_serve (r : ReadAhead ρ) (n : Nat) :
    (r.serve n).2.remaining + (r.serve n).1.length = r.remaining := by
  simp only [serve, remaining, List.length_take, List.length_drop]
  omega

theorem remaining_report (r : ReadAhead ρ) :
    r.report.2.remaining + ReadOutcome.weight r.report.1 ≤ r.remaining := by
  unfold report
  split
  · rename_i h
    simp only [remaining, h, BlockEnd.weight, ReadOutcome.weight]
    omega
  · simp only [remaining, BlockEnd.weight, ReadOutcome.weight, List.length_nil]
    omega

theorem remaining_read (r : ReadAhead ρ) (n : Nat) :
    (r.read n).2.remaining + ReadOutcome.weight (r.read n).1 ≤ r.remaining := by
  unfold read
  split
  · simp [ReadOutcome.weight]
  · generalize hr : (if r.block.isEmpty && r.next == .full then r.fetch else r) = r'
    have hle : r'.remaining ≤ r.remaining := by
      subst hr
      split
      · exact remaining_fetch r
      · exact Nat.le_refl _
    dsimp only
    split
    · exact Nat.le_trans (remaining_report r') hle
    · exact Nat.le_trans (Nat.le_of_eq (remaining_serve r' n)) hle

instance : Reader (ReadAhead ρ) where
  read := read
  remaining := remaining
  remaining_read := remaining_read

end ReadAhead

end DedupArchive
