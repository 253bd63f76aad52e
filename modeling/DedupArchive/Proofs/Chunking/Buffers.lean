/-
  DedupArchive/Proofs/Chunking/Buffers.lean
  =========================================
  **The two buffers of a chunker hold one run of bytes.**

  The bytes of the open chunk lie in two places, and a chunk is made in three
  ways: as a slice of a part, from both places, or from what is left when the
  stream ends.  A cutter holds these bytes in one piece and takes one byte after
  the other.  Seen as a cutter, a chunker does what the cutter does: with a part
  (`push_view`) and at the end (`finish_view`).  What is said of cutters is
  therefore said of chunkers, and the buffers are not looked at again.
-/
import DedupArchive.Chunking.Chunker

namespace DedupArchive

/-! ### One run of bytes -/

/-- A chunker that holds the bytes of the open chunk in one piece. -/
structure Cutter where
  params : Params
  detector : Detector
  held : Bytes
  offset : Nat

namespace Cutter

/-- Take one byte; `chunks` are the chunks completed so far, the last one first. -/
def take : Cutter × List Chunk → UInt8 → Cutter × List Chunk
  | (⟨params, detector, held, offset⟩, chunks), byte =>
    match detector.take byte with
    | (detector, false) => (⟨params, detector, held ++ [byte], offset⟩, chunks)
    | (detector, true) =>
      let chunk := Chunker.chunkOf params (held ++ [byte]) offset
      (⟨params, detector, [], offset + chunk.length⟩, chunk :: chunks)

def push (s : Cutter) (data : Bytes) : List Chunk × Cutter :=
  ((data.foldl take (s, [])).2.reverse, (data.foldl take (s, [])).1)

def last? (s : Cutter) : Option Chunk :=
  if s.held.isEmpty then none else some (Chunker.chunkOf s.params s.held s.offset)

/-- Chunks given out earlier have no part in what follows. -/
theorem foldl_take_chunks (s : Cutter) (chunks : List Chunk) (data : Bytes) :
    data.foldl take (s, chunks) =
      ((data.foldl take (s, [])).1, (data.foldl take (s, [])).2 ++ chunks) := by
  induction data generalizing s chunks with
  | nil => rfl
  | cons b rest ih =>
    have hstep : take (s, chunks) b = ((take (s, []) b).1, (take (s, []) b).2 ++ chunks) := by
      obtain ⟨params, detector, held, offset⟩ := s
      simp only [take]
      split <;> rfl
    rw [List.foldl_cons, List.foldl_cons, hstep, ih _ ((take (s, []) b).2 ++ chunks),
      ih _ (take (s, []) b).2, List.append_assoc]

/-- Pushing two parts is pushing them as one. -/
theorem push_append (s : Cutter) (x y : Bytes) :
    s.push (x ++ y) = ((s.push x).1 ++ ((s.push x).2.push y).1, ((s.push x).2.push y).2) := by
  have hfold := foldl_take_chunks (x.foldl take (s, [])).1 (x.foldl take (s, [])).2 y
  rw [Prod.eta] at hfold
  simp only [push, List.foldl_append, hfold, List.reverse_append]

end Cutter

/-! ### A chunker seen as a cutter -/

namespace Chunker

def view (s : Chunker) : Cutter := ⟨s.params, s.detector, s.spilled.toList ++ s.tail, s.offset⟩

theorem joined_eq (spilled : Array UInt8) (slice : Bytes) :
    joined spilled slice = spilled.toList ++ slice := by
  unfold joined
  split
  · rename_i hempty
    rw [Array.isEmpty_iff.mp hempty]
    rfl
  · exact Array.toList_appendList

theorem tail_spill (s : Chunker) : s.spill.tail = [] := by
  simp only [spill]
  split
  · rename_i hempty
    exact List.isEmpty_iff.mp hempty
  · rfl

theorem view_spill (s : Chunker) : s.spill.view = s.view := by
  simp only [spill]
  split
  · rfl
  · simp only [view, Array.toList_appendList, List.append_nil]

/-- The cutter in the middle of a part: its open chunk reaches to the next byte. -/
def Passage.view (t : Passage) : Cutter × List Chunk :=
  (⟨t.chunker.params, t.chunker.detector, t.chunker.spilled.toList ++ t.rest.take t.count,
    t.chunker.offset⟩, t.chunks)

/-- One byte. -/
theorem Passage.view_take {t : Passage} {b : UInt8} {left : Bytes}
    (h : t.rest.drop t.count = b :: left) :
    (t.take b).view = Cutter.take t.view b ∧ (t.take b).rest.drop (t.take b).count = left := by
  obtain ⟨⟨params, detector, spilled, tail, offset⟩, rest, count, chunks⟩ := t
  change rest.drop count = b :: left at h
  have hslice : rest.take (count + 1) = rest.take count ++ [b] := by
    rw [List.take_add, h]
    rfl
  have hleft : rest.drop (count + 1) = left := by
    rw [← List.drop_drop, h]
    rfl
  rcases htake : detector.take b with ⟨detector', verdict⟩
  cases verdict with
  | false =>
    simp only [take, view, Cutter.take, htake, hslice, hleft, List.append_assoc, and_self]
  | true =>
    simp only [take, view, Cutter.take, htake, joined_eq, hslice, hleft, List.append_assoc,
      List.take_zero, List.append_nil, List.drop_zero, and_self]

/-- **A run of bytes.** -/
theorem Passage.view_foldl_take {t : Passage} {data : Bytes} (h : t.rest.drop t.count = data) :
    (data.foldl take t).view = data.foldl Cutter.take t.view ∧
      (data.foldl take t).rest.drop (data.foldl take t).count = [] := by
  -- the bytes still to come are what the passage has behind its open chunk
  induction data generalizing t with
  | nil => exact ⟨rfl, h⟩
  | cons b rest ih =>
    obtain ⟨hview, hleft⟩ := view_take h
    rw [List.foldl_cons, List.foldl_cons, ← hview]
    exact ih hleft

/-- A part that has gone through leaves what no cut has closed as the tail. -/
theorem push_view (s : Chunker) (data : Bytes) :
    (s.push data).1 = (s.view.push data).1 ∧ (s.push data).2.view = (s.view.push data).2 := by
  have hstart : Passage.view ⟨s.spill, data, 0, []⟩ = (s.view, []) := by
    rw [← view_spill s, view, tail_spill]
    rfl
  obtain ⟨hview, hleft⟩ := Passage.view_foldl_take (t := ⟨s.spill, data, 0, []⟩) (List.drop_zero)
  have hrest := List.take_of_length_le (List.drop_eq_nil_iff.mp hleft)
  rw [hstart] at hview
  rw [Cutter.push, ← hview]
  refine ⟨rfl, ?_⟩
  simp only [Passage.view, hrest]
  rfl

theorem finish_view (s : Chunker) : s.finish.1 = s.view.last? := by
  simp only [finish, joined_eq]
  rfl

/-- Pushing two parts gives what pushing them as one gives, though what is held
    may lie elsewhere. -/
theorem push_append (s : Chunker) (x y : Bytes) :
    (s.push (x ++ y)).1 = (s.push x).1 ++ ((s.push x).2.push y).1 ∧
      (s.push (x ++ y)).2.view = ((s.push x).2.push y).2.view := by
  obtain ⟨hwhole, hend⟩ := s.push_view (x ++ y)
  obtain ⟨hfirst, hmiddle⟩ := s.push_view x
  obtain ⟨hsecond, hend'⟩ := (s.push x).2.push_view y
  rw [hmiddle] at hsecond hend'
  rw [hwhole, hfirst, hsecond, hend, hend', Cutter.push_append]
  exact ⟨rfl, rfl⟩

end Chunker

end DedupArchive
