/-
  DedupArchive/Reading/ChunkReader.lean
  =====================================
  **The chunks of what a reader gives.**

  A chunk reader reads a buffer at a time and gives the chunks out one by one.
  At the end of the input it gives what is held as the last chunk.  A failed
  read is reported once, after the chunks that were complete before it; what is
  held is dropped, and nothing is read after that.  Interrupted reads are tried
  again.
-/
import DedupArchive.Chunking.Chunker
import DedupArchive.Reading.Reader

namespace DedupArchive

def bufferSize : Nat := 65536

/-- A reader whose bytes are being cut into chunks, with the chunks that are complete
    and not given out yet. -/
structure ChunkReader (ρ : Type) where
  source : ρ
  chunker : Chunker
  ready : List Chunk
  bytesRead : Nat
  finished : Bool

namespace ChunkReader

variable {ρ : Type} [Reader ρ]

def start (p : Params) (source : ρ) : ChunkReader ρ := ⟨source, .start p, [], 0, false⟩

/-- The next chunk or failure; `none` when there is nothing more. -/
def next (r : ChunkReader ρ) : Option (Except ChunkError Chunk) × ChunkReader ρ :=
  match r.ready with
  | chunk :: ready => (some (.ok chunk), { r with ready })
  | [] =>
    if r.finished then (none, r)
    else
      match _h : (Reader.read r.source bufferSize).1 with
      | .ok [] =>
        let (last, chunker) := r.chunker.finish
        (last.map .ok,
          { r with source := (Reader.read r.source bufferSize).2, chunker, finished := true })
      | .ok (b :: data) =>
        let (ready, chunker) := r.chunker.push (b :: data)
        next ⟨(Reader.read r.source bufferSize).2, chunker, ready,
          r.bytesRead + (b :: data).length, false⟩
      | .error e =>
        if e.kind = .interrupted then next { r with source := (Reader.read r.source bufferSize).2 }
        else
          (some (.error (.io e)),
            { r with
              source := (Reader.read r.source bufferSize).2
              chunker := r.chunker.reset
              finished := true })
termination_by (Reader.remaining r.source)
decreasing_by
  · exact Reader.remaining_of_data _h
  · exact Reader.remaining_of_failure _h

/-! ### All chunks -/

/-- A bound on how often a chunk reader still gives something. -/
def outstanding (r : ChunkReader ρ) : Nat :=
  Reader.remaining r.source + r.chunker.pending + r.ready.length + (if r.finished then 0 else 1)

theorem outstanding_next {r : ChunkReader ρ} {item : Except ChunkError Chunk}
    (h : r.next.1 = some item) :
    r.next.2.outstanding < r.outstanding := by
  fun_induction next r with
  | case1 r chunk ready hr =>
    simp only [outstanding, hr, List.length_cons]
    omega
  | case2 => simp at h
  | case3 r hr hf hd last chunker hl =>
    have hle := Reader.remaining_read r.source bufferSize
    simp only [Chunker.finish, Prod.mk.injEq] at hl
    obtain ⟨rfl, rfl⟩ := hl
    simp only [outstanding, hr, hf, Chunker.pending_reset, List.length_nil]
    simp at hf ⊢
    omega
  | case4 r hr hf b data hd ready chunker hp ih =>
    refine Nat.lt_of_lt_of_le (ih h) ?_
    have hle := Reader.remaining_read r.source bufferSize
    have hpush := Chunker.length_push r.chunker (b :: data)
    simp only [hd, hp, ReadOutcome.weight] at hle hpush
    simp only [outstanding, hr, hf, List.length_nil]
    simp
    omega
  | case5 r hr hf e hd hi ih =>
    refine Nat.lt_of_lt_of_le (ih h) ?_
    have := Reader.remaining_of_failure hd
    simp only [outstanding]
    omega
  | case6 r hr hf e hd hi =>
    have := Reader.remaining_of_failure hd
    simp only [outstanding, hr, Chunker.pending_reset, List.length_nil]
    simp
    omega

/-- All chunks up to the end or a failure; `given` holds those already given,
    the last one first. -/
def collect (r : ChunkReader ρ) (given : List Chunk) : List Chunk × Option ChunkError :=
  match _h : r.next.1 with
  | none => (given.reverse, none)
  | some (.ok chunk) => collect r.next.2 (chunk :: given)
  | some (.error e) => (given.reverse, some e)
termination_by r.outstanding
decreasing_by exact outstanding_next _h

end ChunkReader

/-- The chunks of what a reader gives, up to the end or a failure. -/
def chunksOf {ρ : Type} [Reader ρ] (p : Params) (source : ρ) : List Chunk × Option ChunkError :=
  (ChunkReader.start p source).collect []

end DedupArchive
