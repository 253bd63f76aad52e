/-
  DedupArchive/Chunking/Chunker.lean
  ==================================
  **Cutting a stream that arrives in parts.**

  A chunker takes bytes in parts of any size and gives back each chunk with the
  part that holds its last byte.  Between parts it holds the bytes of the open
  chunk, so how a stream is split does not show in its chunks.
-/
import DedupArchive.Chunking.Chunk
import DedupArchive.Chunking.Detector

namespace DedupArchive

/-- A chunker in the middle of a stream.  Its open chunk starts at `offset`; the bytes
    that came with earlier parts are in `spilled`, those of the latest part in `tail`. -/
structure Chunker where
  params : Params
  detector : Detector
  spilled : Array UInt8
  tail : Bytes
  offset : Nat

namespace Chunker

def start (p : Params) : Chunker := ⟨p, .start p, #[], [], 0⟩

def chunkOf (p : Params) (data : Bytes) (offset : Nat) : Chunk :=
  ⟨data, some offset, if p.hashing then some (Digest.of data) else none⟩

/-- Put what is left of the latest part to what came before. -/
def spill : Chunker → Chunker
  | ⟨params, detector, spilled, tail, offset⟩ =>
    if tail.isEmpty then ⟨params, detector, spilled, tail, offset⟩
    else ⟨params, detector, spilled ++ tail, [], offset⟩

/-- The bytes of a chunk: those of one part, unless some came with earlier parts. -/
def joined (spilled : Array UInt8) (slice : Bytes) : Bytes :=
  if spilled.isEmpty then slice else (spilled ++ slice).toList

/-- A part on its way through a chunker: `rest` starts where the open chunk does, and
    `count` of its bytes have gone through.  The chunks completed stand with the last
    one first. -/
structure Passage where
  chunker : Chunker
  rest : Bytes
  count : Nat
  chunks : List Chunk

def Passage.take : Passage → UInt8 → Passage
  | ⟨⟨params, detector, spilled, tail, offset⟩, rest, count, chunks⟩, byte =>
    match detector.take byte with
    | (detector, false) => ⟨⟨params, detector, spilled, tail, offset⟩, rest, count + 1, chunks⟩
    | (detector, true) =>
      let chunk := chunkOf params (joined spilled (rest.take (count + 1))) offset
      ⟨⟨params, detector, #[], tail, offset + chunk.length⟩, rest.drop (count + 1), 0, chunk :: chunks⟩

/-- Take a part of the stream and give back the chunks that it completes. -/
def push (s : Chunker) (data : Bytes) : List Chunk × Chunker :=
  let t := data.foldl Passage.take ⟨s.spill, data, 0, []⟩
  (t.chunks.reverse, { t.chunker with tail := t.rest })

def pushAll (s : Chunker) (parts : List Bytes) : List Chunk × Chunker :=
  let (given, s) := parts.foldl (fun (given, s) part =>
    let (chunks, s) := s.push part
    (chunks :: given, s)) (([], s) : List (List Chunk) × Chunker)
  (given.reverse.flatten, s)

def reset (s : Chunker) : Chunker := ⟨s.params, s.detector.restart, #[], [], 0⟩

/-- End the stream: what is held is its last chunk, unless nothing is. -/
def finish (s : Chunker) : Option Chunk × Chunker :=
  let data := joined s.spilled s.tail
  (if data.isEmpty then none else some (chunkOf s.params data s.offset), s.reset)

def pending (s : Chunker) : Nat := s.spilled.size + s.tail.length

theorem pending_reset (s : Chunker) : s.reset.pending = 0 := rfl

/-! ### No more chunks than bytes -/

theorem pending_spill (s : Chunker) : s.spill.pending = s.pending := by
  obtain ⟨p, d, spilled, tail, offset⟩ := s
  simp only [spill]
  split
  · rfl
  · show (spilled ++ tail).size + 0 = spilled.size + tail.length
    rw [Nat.add_zero, ← Array.length_toList, Array.toList_appendList, List.length_append,
      Array.length_toList]

def Passage.weight (t : Passage) : Nat := t.chunker.spilled.size + t.count + t.chunks.length

theorem Passage.weight_take (t : Passage) (b : UInt8) : (t.take b).weight ≤ t.weight + 1 := by
  obtain ⟨⟨p, d, spilled, tail, offset⟩, rest, count, chunks⟩ := t
  simp only [take]
  split <;> simp only [weight, List.length_cons, List.size_toArray, List.length_nil] <;> omega

/-- What has not gone through yet stays to come. -/
theorem Passage.length_rest_take (t : Passage) (b : UInt8) {left : Nat}
    (h : t.rest.length ≤ t.count + (left + 1)) :
    (t.take b).rest.length ≤ (t.take b).count + left := by
  obtain ⟨⟨p, d, spilled, tail, offset⟩, rest, count, chunks⟩ := t
  change rest.length ≤ count + (left + 1) at h
  simp only [take]
  split <;> simp only [List.length_drop] <;> omega

theorem Passage.weight_foldl_take (t : Passage) (data : Bytes)
    (h : t.rest.length ≤ t.count + data.length) :
    (data.foldl take t).weight ≤ t.weight + data.length ∧
      (data.foldl take t).rest.length ≤ (data.foldl take t).count := by
  induction data generalizing t with
  | nil => exact ⟨Nat.le_refl _, h⟩
  | cons b rest ih =>
    obtain ⟨hweight, hrest⟩ := ih (t.take b) (t.length_rest_take b h)
    refine ⟨?_, hrest⟩
    have hstep := t.weight_take b
    rw [List.foldl_cons, List.length_cons]
    omega

theorem length_push (s : Chunker) (data : Bytes) :
    (s.push data).2.pending + (s.push data).1.length ≤ s.pending + data.length := by
  obtain ⟨hweight, hrest⟩ := Passage.weight_foldl_take ⟨s.spill, data, 0, []⟩ data
    (Nat.le_add_left _ _)
  have hpending := pending_spill s
  simp only [Passage.weight, List.length_nil] at hweight
  simp only [pending] at hpending
  simp only [push, pending, List.length_reverse]
  omega

end Chunker

def chunkBytes (p : Params) (data : Bytes) : List Chunk :=
  let (chunks, s) := (Chunker.start p).push data
  chunks ++ s.finish.1.toList

end DedupArchive
