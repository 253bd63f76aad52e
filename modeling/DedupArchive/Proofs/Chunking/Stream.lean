/-
  DedupArchive/Proofs/Chunking/Stream.lean
  ========================================
  **A chunker gives out the pieces of its stream.**

  Since the cutting rule looks back only, a chunker can follow the cuts of a
  byte string that it has not seen to the end.  Pieces that a cut ends are given
  out as they are completed (`Tracks.push`); the bytes after the last cut are
  held, and are the last piece when the stream ends there (`Tracks.finish`).  Put
  together, `chunkBytes` gives the pieces of a byte string.
-/
import DedupArchive.Proofs.Chunking.Buffers
import DedupArchive.Proofs.Chunking.Pieces
import DedupArchive.Proofs.Chunking.Window

namespace DedupArchive

def Chunker.ofPiece (p : Params) (piece : Nat × Bytes) : Chunk := chunkOf p piece.2 piece.1

/-! ### A cutter in the middle of a stream -/

namespace Cutter

/-- The cutter has seen these bytes, and the last cut among them fell at this
    position. -/
structure Tracks (s : Cutter) (p : Params) (seen : Bytes) (last : Nat) : Prop where
  params : s.params = p
  detector : s.detector.Tracks p seen last
  held : s.held = seen.drop last
  offset : s.offset = last

variable {s : Cutter} {p : Params} {seen : Bytes} {last : Nat}

theorem Tracks.last_le (h : s.Tracks p seen last) : last ≤ seen.length := h.detector.last_le

/-- One byte that no cut follows is held. -/
theorem Tracks.take_of_open (h : s.Tracks p seen last) (b : UInt8) (chunks : List Chunk)
    (hopen : cutsAt p (seen ++ [b]) last (seen.length + 1) = false) :
    (take (s, chunks) b).1.Tracks p (seen ++ [b]) last ∧ (take (s, chunks) b).2 = chunks := by
  obtain ⟨hverdict, hdetector⟩ := h.detector.take b
  rw [hverdict, hopen] at hdetector
  rcases htake : s.detector.take b with ⟨detector, verdict⟩
  rw [htake] at hdetector hverdict
  have hfalse : verdict = false := hverdict.trans hopen
  subst hfalse
  simp only [take, htake]
  refine ⟨⟨h.params, hdetector, ?_, h.offset⟩, trivial⟩
  rw [h.held, List.drop_append_of_le_length h.last_le]

/-- One byte that a cut follows completes a chunk. -/
theorem Tracks.take_of_cut (h : s.Tracks p seen last) (b : UInt8) (chunks : List Chunk)
    (hcut : cutsAt p (seen ++ [b]) last (seen.length + 1) = true) :
    (take (s, chunks) b).1.Tracks p (seen ++ [b]) (seen.length + 1) ∧
      (take (s, chunks) b).2 = Chunker.chunkOf p ((seen ++ [b]).drop last) last :: chunks := by
  obtain ⟨hverdict, hdetector⟩ := h.detector.take b
  rw [hverdict, hcut, if_pos rfl] at hdetector
  rcases htake : s.detector.take b with ⟨detector, verdict⟩
  rw [htake] at hdetector hverdict
  have htrue : verdict = true := hverdict.trans hcut
  subst htrue
  have hlast := h.last_le
  have hlength : (seen ++ [b]).length = seen.length + 1 := by
    rw [List.length_append, List.length_singleton]
  have hdata : s.held ++ [b] = (seen ++ [b]).drop last := by
    rw [h.held, List.drop_append_of_le_length hlast]
  simp only [take, htake, hdata, h.params, h.offset]
  refine ⟨⟨rfl, hdetector, ?_, ?_⟩, trivial⟩
  · exact (List.drop_of_length_le (Nat.le_of_eq hlength)).symm
  · show last + ((seen ++ [b]).drop last).length = seen.length + 1
    rw [List.length_drop, hlength]
    omega

/-- **A run of bytes.**  The chunks completed by more bytes are the pieces of
    the whole that the cuts among those bytes end. -/
theorem Tracks.foldl_take (h : s.Tracks p seen last) (rest : Bytes) (chunks : List Chunk) :
    (rest.foldl take (s, chunks)).2 =
        ((closedFrom (seen ++ rest) last
          (cutsFrom p (seen ++ rest) last seen.length rest.length)).map (Chunker.ofPiece p)).reverse ++
          chunks ∧
      (rest.foldl take (s, chunks)).1.Tracks p (seen ++ rest)
        (lastCut last (cutsFrom p (seen ++ rest) last seen.length rest.length)) := by
  induction rest generalizing s seen last chunks with
  | nil =>
    rw [List.append_nil]
    exact ⟨rfl, h⟩
  | cons b rest ih =>
    have hwhole : seen ++ b :: rest = (seen ++ [b]) ++ rest := by
      rw [List.append_assoc, List.singleton_append]
    have hlength : (seen ++ [b]).length = seen.length + 1 := by
      rw [List.length_append, List.length_singleton]
    have hrule : cutsAt p (seen ++ b :: rest) last (seen.length + 1) =
        cutsAt p (seen ++ [b]) last (seen.length + 1) := by
      rw [hwhole, cutsAt_append rest last (Nat.le_of_eq hlength.symm)]
    rw [List.foldl_cons, List.length_cons, cutsFrom, hrule]
    cases hcut : cutsAt p (seen ++ [b]) last (seen.length + 1) with
    | false =>
      obtain ⟨htracks, hchunks⟩ := h.take_of_open b chunks hcut
      have hrest := ih htracks (take (s, chunks) b).2
      rw [Prod.eta, hlength, ← hwhole, hchunks] at hrest
      simp only [Bool.false_eq_true, if_false]
      exact hrest
    | true =>
      obtain ⟨htracks, hchunks⟩ := h.take_of_cut b chunks hcut
      have hrest := ih htracks (take (s, chunks) b).2
      rw [Prod.eta, hlength, ← hwhole, hchunks] at hrest
      have hlast := h.last_le
      have hpiece : ((seen ++ b :: rest).drop last).take (seen.length + 1 - last) =
          (seen ++ [b]).drop last := by
        have htail : ((seen ++ [b]).drop last).length = seen.length + 1 - last := by
          rw [List.length_drop, hlength]
        rw [hwhole, List.drop_append_of_le_length (by omega), List.take_left' htail]
      simp only [if_true, closedFrom, lastCut_cons, List.map_cons, List.reverse_cons,
        List.append_assoc, List.singleton_append, hpiece]
      exact hrest

/-- What a part of a stream completes, and where the cutter stands after it. -/
theorem Tracks.push (h : s.Tracks p seen last) (part : Bytes) :
    (s.push part).1 = (closedFrom (seen ++ part) last
        (cutsFrom p (seen ++ part) last seen.length part.length)).map (Chunker.ofPiece p) ∧
      (s.push part).2.Tracks p (seen ++ part)
        (lastCut last (cutsFrom p (seen ++ part) last seen.length part.length)) := by
  obtain ⟨hchunks, htracks⟩ := h.foldl_take part []
  refine ⟨?_, htracks⟩
  show ((part.foldl take (s, [])).2).reverse = _
  rw [hchunks, List.append_nil, List.reverse_reverse]

/-- What is held at the end of the stream is the open piece. -/
theorem Tracks.toList_last (h : s.Tracks p seen last) :
    s.last?.toList = (openPiece seen last).map (Chunker.ofPiece p) := by
  have hheld : s.held.isEmpty = decide (¬ last < seen.length) := by
    have hlength := congrArg List.length h.held
    rw [List.length_drop] at hlength
    rw [Bool.eq_iff_iff, decide_eq_true_iff, List.isEmpty_iff_length_eq_zero]
    omega
  simp only [last?, hheld, openPiece]
  by_cases hlt : last < seen.length
  · rw [if_pos hlt, if_neg (by simpa using hlt), h.held, h.params, h.offset]
    rfl
  · rw [if_neg hlt, if_pos (by simpa using hlt)]
    rfl

end Cutter

/-! ### A chunker in the middle of a stream -/

namespace Chunker

/-- The chunker has seen these bytes, and the last cut among them fell at this
    position. -/
def Tracks (s : Chunker) (p : Params) (seen : Bytes) (last : Nat) : Prop := s.view.Tracks p seen last

variable {s : Chunker} {p : Params} {seen : Bytes} {last : Nat}

theorem tracks_start (p : Params) : (start p).Tracks p [] 0 :=
  ⟨rfl, Detector.tracks_start p, rfl, rfl⟩

theorem Tracks.offset (h : s.Tracks p seen last) : s.offset = last := Cutter.Tracks.offset h

theorem Tracks.push (h : s.Tracks p seen last) (part : Bytes) :
    (s.push part).1 = (closedFrom (seen ++ part) last
        (cutsFrom p (seen ++ part) last seen.length part.length)).map (ofPiece p) ∧
      (s.push part).2.Tracks p (seen ++ part)
        (lastCut last (cutsFrom p (seen ++ part) last seen.length part.length)) := by
  obtain ⟨hchunks, hview⟩ := s.push_view part
  rw [hchunks, Tracks, hview]
  exact Cutter.Tracks.push h part

theorem Tracks.finish (h : s.Tracks p seen last) :
    s.finish.1.toList = (openPiece seen last).map (ofPiece p) := by
  rw [finish_view]
  exact Cutter.Tracks.toList_last h

end Chunker

/-! ### A whole byte string -/

/-- The chunks that a byte string completes are the pieces that a cut ends. -/
theorem push_start (p : Params) (data : Bytes) :
    ((Chunker.start p).push data).1 = (closedPieces p data).map (Chunker.ofPiece p) ∧
      ((Chunker.start p).push data).2.Tracks p data (lastCut 0 (cuts p data)) :=
  (Chunker.tracks_start p).push data

/-- The chunks of a byte string are its pieces. -/
theorem chunkBytes_eq (p : Params) (data : Bytes) :
    chunkBytes p data = (pieces p data).map (Chunker.ofPiece p) := by
  obtain ⟨hchunks, htracks⟩ := push_start p data
  show ((Chunker.start p).push data).1 ++ ((Chunker.start p).push data).2.finish.1.toList = _
  rw [hchunks, htracks.finish, pieces_eq, List.map_append]

theorem cuts_hashing (p : Params) (hashing : Bool) (data : Bytes) :
    cuts { p with hashing } data = cuts p data := by
  have hfrom (last position count : Nat) :
      cutsFrom { p with hashing } data last position count = cutsFrom p data last position count := by
    induction count generalizing last position with
    | zero => rfl
    | succ count ih =>
      rw [cutsFrom, cutsFrom, ih, ih]
      rfl
  exact hfrom 0 0 data.length

/-- **A byte string is cut as the rule says.**  Its chunks are its pieces with
    their places, and with their digests where these are asked for; the pieces
    make up the byte string, and whether digests are asked for does not move a
    cut.  Each position is cut or not by the rule, with the window before it
    hashed afresh. -/
theorem chunkBytes_cut_by_rule (p : Params) (data : Bytes) :
    chunkBytes p data = (pieces p data).map (fun piece =>
        ⟨piece.2, some piece.1, if p.hashing then some (Digest.of piece.2) else none⟩) ∧
      ((pieces p data).map (·.2)).flatten = data ∧
      (∀ hashing, pieces { p with hashing } data = pieces p data) ∧
      ∀ (last : Nat) (i : Fin data.length),
        cutsAt p data last (i + 1) = true ↔ IsCut p data last (i + 1) := by
  refine ⟨chunkBytes_eq p data, flatten_pieces p data, ?_, ?_⟩
  · intro hashing
    rw [pieces, pieces, cuts_hashing]
  · intro last i
    exact cutsAt_iff_isCut last i.isLt

end DedupArchive
