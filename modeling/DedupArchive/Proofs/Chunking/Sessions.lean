/-
  DedupArchive/Proofs/Chunking/Sessions.lean
  ==========================================
  **A chunker that is pushed, finished and reset in any order.**

  A session is any sequence of calls to one chunker.  Between two calls that end
  a stream, the parts pushed make up one byte string, and what the chunker gives
  and shows depends on that byte string alone (`MatchesStream`): the chunks that
  end at a cut come out with the part that brings their last byte, and what is
  held is what follows, in whichever buffer it lies.  A chunker whose stream has
  been ended cannot be told from a new one, although its ring is full of old bytes.
-/
import DedupArchive.Proofs.Chunking.Prefix

namespace DedupArchive

/-! ### Forgetting a stream -/

section Forget

variable {p : Params} {seen : Bytes} {last : Nat}

/-- What is left in the ring is in no window of the next stream. -/
theorem Detector.Tracks.restart {d : Detector} (h : d.Tracks p seen last) :
    d.restart.Tracks p [] 0 where
  width := h.width
  multiplier := h.multiplier
  mask := h.mask
  minSize := h.minSize
  maxSize := h.maxSize
  filled := (Nat.min_eq_left (Nat.zero_le _)).symm
  head _ := rfl
  window := by
    rw [window_of_filling (show d.restart.filled < d.restart.roller.width from d.roller.width_pos)]
    show List.take 0 _ = List.drop _ []
    rw [List.take_zero, List.drop_nil]
  value hfull := absurd hfull (Nat.not_le_of_lt p.width_pos)
  last_le := Nat.le_refl _
  sinceCut := rfl

theorem Chunker.Tracks.reset {s : Chunker} (h : s.Tracks p seen last) : s.reset.Tracks p [] 0 where
  params := h.params
  detector := h.detector.restart
  held := rfl
  offset := rfl

end Forget

namespace Chunker

/-! ### Calls -/

inductive Call where
  | push (part : Bytes)
  | finish
  | reset

inductive Event where
  | pushed (part : Bytes) (chunks : List Chunk)
  | finished (last : Option Chunk)
  | reset

def perform (s : Chunker) : Call → Event × Chunker
  | .push part => (.pushed part (s.push part).1, (s.push part).2)
  | .finish => (.finished s.finish.1, s.finish.2)
  | .reset => (.reset, s.reset)

def run (s : Chunker) : List Call → List Event × Chunker
  | [] => ([], s)
  | call :: rest =>
    ((s.perform call).1 :: ((s.perform call).2.run rest).1, ((s.perform call).2.run rest).2)

/-- The parts of a stream, each with the chunks that came back for it. -/
abbrev Parts := List (Bytes × List Chunk)

namespace Parts

def after (parts : Parts) : Event → Parts
  | .pushed part chunks => parts ++ [(part, chunks)]
  | .finished _ => []
  | .reset => []

def bytes (parts : Parts) : Bytes := (parts.map (·.1)).flatten

def chunks (parts : Parts) : List Chunk := (parts.map (·.2)).flatten

theorem bytes_concat (parts : Parts) (part : Bytes) (chunks : List Chunk) :
    bytes (parts ++ [(part, chunks)]) = parts.bytes ++ part := by
  rw [bytes, List.map_append, List.flatten_append, List.map_singleton, List.flatten_singleton]
  rfl

theorem chunks_concat (parts : Parts) (part : Bytes) (more : List Chunk) :
    chunks (parts ++ [(part, more)]) = parts.chunks ++ more := by
  rw [chunks, List.map_append, List.flatten_append, List.map_singleton, List.flatten_singleton]
  rfl

/-- The bytes up to a part, that part, and the bytes behind it. -/
theorem bytes_split (parts : Parts) {i : Nat} (hi : i < parts.length) :
    bytes (parts.take (i + 1)) = bytes (parts.take i) ++ parts[i].1 ∧
      parts.bytes = bytes (parts.take i) ++ parts[i].1 ++ bytes (parts.drop (i + 1)) := by
  have htake : bytes (parts.take (i + 1)) = bytes (parts.take i) ++ parts[i].1 := by
    rw [List.take_succ_eq_append_getElem hi, bytes_concat]
  refine ⟨htake, ?_⟩
  rw [← htake, bytes, bytes, bytes, ← List.flatten_append, ← List.map_append, List.take_append_drop]

end Parts

def openParts (s : Chunker) (calls : List Call) : Parts := (s.run calls).1.foldl Parts.after []

/-! ### What a session keeps -/

structure Reached (s : Chunker) (p : Params) (parts : Parts) : Prop where
  tracks : s.Tracks p parts.bytes (lastCut 0 (cuts p parts.bytes))
  chunks : parts.chunks = (closedPieces p parts.bytes).map (ofPiece p)
  each : ∀ (i : Nat) (hi : i < parts.length),
    parts[i].2 = (newPieces p (Parts.bytes (parts.take i)) parts[i].1).map (ofPiece p)

section Session

variable {s t : Chunker} {p : Params} {parts : Parts} {seen : Bytes} {last : Nat}

theorem Tracks.reached (h : s.Tracks p [] 0) : s.Reached p [] where
  tracks := h
  chunks := rfl
  each i hi := absurd hi (Nat.not_lt_zero i)

/-- **One part more.** -/
theorem Reached.push (h : s.Reached p parts) (part : Bytes) :
    (s.push part).2.Reached p (parts ++ [(part, (s.push part).1)]) := by
  obtain ⟨hgiven, htracks⟩ := h.tracks.push_part part
  refine ⟨?_, ?_, ?_⟩
  · rw [Parts.bytes_concat]
    exact htracks
  · rw [Parts.chunks_concat, Parts.bytes_concat, h.chunks, hgiven, closedPieces_append, List.map_append]
  · intro i hi
    by_cases hold : i < parts.length
    -- the bytes before an earlier part are the same as before
    · rw [List.getElem_append_left hold, List.take_append_of_le_length (Nat.le_of_lt hold)]
      exact h.each i hold
    · have hlast : i = parts.length := by
        rw [List.length_append, List.length_singleton] at hi
        omega
      subst hlast
      rw [List.getElem_concat_length rfl, List.take_left' rfl, hgiven]

theorem Reached.perform (h : s.Reached p parts) (call : Call) :
    (s.perform call).2.Reached p (parts.after (s.perform call).1) := by
  cases call with
  | push part => exact h.push part
  | finish => exact h.tracks.reset.reached
  | reset => exact h.tracks.reset.reached

/-- **Any number of calls.** -/
theorem Reached.run (h : s.Reached p parts) (calls : List Call) :
    (s.run calls).2.Reached p ((s.run calls).1.foldl Parts.after parts) := by
  induction calls generalizing s parts with
  | nil => exact h
  | cons call rest ih => exact ih (h.perform call)

theorem reached_run (p : Params) (calls : List Call) :
    ((start p).run calls).2.Reached p ((start p).openParts calls) :=
  (tracks_start p).reached.run calls

/-! ### What a session shows -/

/-- What a chunker has given and what it shows, in the middle of a stream that came in
    these parts: every chunk that ends at a cut, with the part that brought its last
    byte; held is the last chunk, unless nothing is. -/
structure MatchesStream (s : Chunker) (p : Params) (parts : Parts) : Prop where
  chunks : parts.chunks = (chunkBytes p parts.bytes).filter (endsAtCut p parts.bytes)
  each : ∀ (i : Nat) (hi : i < parts.length),
    parts[i].2 = (chunkBytes p parts.bytes).filter fun c => endsAtCut p parts.bytes c &&
      endsWithin (Parts.bytes (parts.take i)).length (Parts.bytes (parts.take (i + 1))).length c
  offset : s.offset = (parts.chunks.map (·.length)).sum
  pending : s.offset + s.pending = parts.bytes.length
  finish : s.finish.1 =
    if s.pending = 0 then none else some (chunkOf p (parts.bytes.drop s.offset) s.offset)
  whole : parts.chunks ++ s.finish.1.toList = chunkBytes p parts.bytes

theorem length_view (s : Chunker) : s.view.held.length = s.pending := by
  rw [view, List.length_append, Array.length_toList, Chunker.pending]

theorem Tracks.pending (h : s.Tracks p seen last) : last + s.pending = seen.length := by
  have hlength := congrArg List.length (Cutter.Tracks.held h)
  have hlast := Cutter.Tracks.last_le h
  rw [length_view, List.length_drop] at hlength
  omega

theorem Tracks.finish_eq (h : s.Tracks p seen last) : s.finish.1 =
    if s.pending = 0 then none else some (chunkOf p (seen.drop s.offset) s.offset) := by
  have hheld : s.view.held = seen.drop last := Cutter.Tracks.held h
  have hempty : s.view.held.isEmpty = true ↔ s.pending = 0 := by
    rw [List.isEmpty_iff_length_eq_zero, length_view]
  have hparams : s.view.params = p := Cutter.Tracks.params h
  have hoffset : s.view.offset = s.offset := rfl
  rw [finish_view, Cutter.last?, hoffset, hparams, h.offset, ← hheld]
  simp only [hempty]

theorem Reached.matchesStream (h : s.Reached p parts) : s.MatchesStream p parts where
  chunks := by rw [filter_endsAtCut, h.chunks]
  each := by
    intro i hi
    obtain ⟨htake, hwhole⟩ := parts.bytes_split hi
    rw [h.each i hi, htake, hwhole, filter_endsWithin]
  offset := by
    obtain ⟨hascend, hbound⟩ := cuts_ascend p parts.bytes
    have hsum := length_flatten_closedFrom hascend hbound
    rw [h.tracks.offset, ← hsum, Nat.zero_add, h.chunks, List.map_map]
    rfl
  pending := by
    rw [h.tracks.offset]
    exact h.tracks.pending
  finish := h.tracks.finish_eq
  whole := by rw [h.chunks, h.tracks.finish, chunkBytes_eq, pieces_eq, List.map_append]

/-! ### A chunker whose stream has been ended -/

/-- No calls tell one chunker from the other. -/
def Alike (s t : Chunker) : Prop :=
  ∀ calls, (s.run calls).1 = (t.run calls).1 ∧ (s.run calls).2.params = (t.run calls).2.params ∧
    (s.run calls).2.offset = (t.run calls).2.offset ∧
    (s.run calls).2.pending = (t.run calls).2.pending

/-- Chunkers at the same place of the same stream do the same. -/
theorem Tracks.perform (hs : s.Tracks p seen last) (ht : t.Tracks p seen last) (call : Call) :
    (s.perform call).1 = (t.perform call).1 ∧ ∃ seen' last',
      (s.perform call).2.Tracks p seen' last' ∧ (t.perform call).2.Tracks p seen' last' := by
  cases call with
  | push part =>
    obtain ⟨hchunks, hs'⟩ := hs.push part
    obtain ⟨hchunks', ht'⟩ := ht.push part
    refine ⟨?_, _, _, hs', ht'⟩
    simp only [Chunker.perform, hchunks, hchunks']
  | finish =>
    refine ⟨?_, [], 0, hs.reset, ht.reset⟩
    have hpending : s.pending = t.pending := Nat.add_left_cancel (hs.pending.trans ht.pending.symm)
    simp only [Chunker.perform, hs.finish_eq, ht.finish_eq, hpending, hs.offset, ht.offset]
  | reset => exact ⟨rfl, [], 0, hs.reset, ht.reset⟩

theorem Tracks.alike (hs : s.Tracks p seen last) (ht : t.Tracks p seen last) : s.Alike t := by
  intro calls
  induction calls generalizing s t seen last with
  | nil =>
    exact ⟨rfl, hs.params.trans ht.params.symm, hs.offset.trans ht.offset.symm,
      Nat.add_left_cancel (hs.pending.trans ht.pending.symm)⟩
  | cons call rest ih =>
    obtain ⟨hevent, seen', last', hs', ht'⟩ := hs.perform ht call
    obtain ⟨hevents, hshown⟩ := ih hs' ht'
    refine ⟨?_, hshown⟩
    simp only [Chunker.run, hevent, hevents]

end Session

/-- **How a stream is split does not show.**  After any calls to a chunker, the
    chunks that it gave since the open stream began are those of the bytes pushed
    since then that end at a cut, each given with the part that brought its last
    byte; place and number of the bytes held are what is left, and finishing gives
    these bytes.  Ending the stream either way leaves a chunker that cannot be told
    from a new one. -/
theorem run_matches_stream (p : Params) (calls : List Call) :
    ((start p).run calls).2.MatchesStream p ((start p).openParts calls) ∧
      ((start p).run calls).2.finish.2.Alike (start p) ∧
      ((start p).run calls).2.reset.Alike (start p) := by
  have h := reached_run p calls
  have halike : ((start p).run calls).2.reset.Alike (start p) := h.tracks.reset.alike (tracks_start p)
  exact ⟨h.matchesStream, halike, halike⟩

end Chunker

end DedupArchive
