/-
  DedupArchive/Proofs/Reading/ReadingAhead.lean
  =============================================
  **Reading ahead changes no chunk, or leaves none.**

  A block and what comes behind it are together what the source delivers, wherever
  the block stopped filling: a block cuts the bytes in two and neither loses a byte
  nor takes a failure for an end.  So a source that is read ahead is as steady as
  the source itself and delivers the same, and a chunk reader over it cannot be told
  apart from one over the source.

  Blocks that are too long to allocate are the exception.  Of the source nothing is
  delivered then, and no failure: a chunk reader takes it for empty.
-/
import DedupArchive.Proofs.Reading.Iteration
import DedupArchive.Reading.ReadAhead

namespace DedupArchive

namespace ReadAhead

variable {ρ : Type} [Reader ρ] [SteadyReader ρ]

/-! ### What is delivered -/

/-- What comes behind a block.  A failure that were an interruption would be tried
    again and found to be the end; blocks without room would be taken for it too, and
    blocks that cannot be allocated are. -/
def behind (blockSize : Nat) (source : ρ) : BlockEnd → Bytes × Option IoError
  | .full =>
    if blockSize = 0 ∨ longestBlock < blockSize then ([], none) else SteadyReader.delivered source
  | .ended => ([], none)
  | .failed e => if e.kind = .interrupted then ([], none) else ([], some e)

/-- What is left of the block, and what comes behind it. -/
def delivered (r : ReadAhead ρ) : Bytes × Option IoError :=
  (r.block ++ (behind r.blockSize r.source r.next).1, (behind r.blockSize r.source r.next).2)

omit [SteadyReader ρ] in
theorem fill_zero (source : ρ) (taken : Bytes) : fill source 0 taken = (taken.reverse, .full, source) := by
  rw [fill, if_pos rfl]

/-- Filling a block takes bytes from the front of what the source delivers, and some
    unless there is no room or nothing to take. -/
theorem exists_fill {blockSize : Nat} (hsize : ¬ (blockSize = 0 ∨ longestBlock < blockSize))
    (source : ρ) (room : Nat) (taken : Bytes) : ∃ data : Bytes,
      (fill source room taken).1 = taken.reverse ++ data ∧
      SteadyReader.delivered source =
        (data ++ (behind blockSize (fill source room taken).2.2 (fill source room taken).2.1).1,
          (behind blockSize (fill source room taken).2.2 (fill source room taken).2.1).2) ∧
      ((fill source room taken).2.1 = .full → data = [] → room = 0) := by
  -- the loop: what one read gives stands in front of what the others take
  fun_induction fill source room taken with
  | case1 source taken =>
    refine ⟨[], (List.append_nil _).symm, ?_, fun _ _ => rfl⟩
    simp only [behind, if_neg hsize, List.nil_append]
  | case2 source room taken hroom hend =>
    have hread := SteadyReader.delivered_read source (Nat.pos_of_ne_zero hroom)
    rw [hend] at hread
    refine ⟨[], (List.append_nil _).symm, hread, ?_⟩
    intro hfull
    cases hfull
  | case3 source room taken hroom b data hdata ih =>
    have hread := SteadyReader.delivered_read source (Nat.pos_of_ne_zero hroom)
    rw [hdata] at hread
    obtain ⟨more, hblock, hmore, -⟩ := ih
    refine ⟨b :: data ++ more, ?_, ?_, ?_⟩
    · rw [hblock, List.reverseAux_eq, List.reverse_append, List.reverse_reverse, List.append_assoc]
    · rw [hread, hmore, List.append_assoc]
    · intro _ hnone
      cases hnone
  | case4 source room taken hroom e herror hinterrupted ih =>
    have hread := SteadyReader.delivered_read source (Nat.pos_of_ne_zero hroom)
    rw [herror] at hread
    simp only [hinterrupted, if_true] at hread
    rwa [hread]
  | case5 source room taken hroom e herror hfails =>
    have hread := SteadyReader.delivered_read source (Nat.pos_of_ne_zero hroom)
    rw [herror] at hread
    simp only [hfails, if_false] at hread
    refine ⟨[], (List.append_nil _).symm, ?_, ?_⟩
    · simp only [behind, if_neg hfails, List.nil_append]
      exact hread
    · intro hfull
      cases hfull

/-- Fetching the next block changes nothing that is delivered, and it is not empty
    if more comes behind it. -/
theorem delivered_fetch {r : ReadAhead ρ} (hblock : r.block = []) (hnext : r.next = .full) :
    r.fetch.delivered = r.delivered ∧
      (r.fetch.block = [] → r.fetch.next = .full → r.fetch.blockSize = 0) := by
  obtain ⟨source, blockSize, block, next⟩ := r
  cases hblock
  cases hnext
  rcases Nat.eq_zero_or_pos blockSize with rfl | hpos
  · rw [fetch, nextBlock, if_neg (Nat.not_lt_zero _), fill_zero]
    exact ⟨rfl, fun _ _ => rfl⟩
  by_cases hlong : longestBlock < blockSize
  · rw [fetch, nextBlock, if_pos hlong]
    constructor
    · rw [delivered, delivered, behind, behind, if_pos (Or.inr hlong)]
    · intro _ hmore
      cases hmore
  · have hsize : ¬ (blockSize = 0 ∨ longestBlock < blockSize) :=
      not_or.mpr ⟨Nat.ne_of_gt hpos, hlong⟩
    obtain ⟨data, hfilled, hdelivered, hfull⟩ := exists_fill hsize source blockSize []
    rw [List.reverse_nil, List.nil_append] at hfilled
    rw [fetch, nextBlock, if_neg hlong]
    constructor
    · rw [delivered, delivered, behind, if_neg hsize, hdelivered, ← hfilled]
      rfl
    · intro hempty hmore
      exact hfull hmore (hfilled.symm.trans hempty)

def filled (r : ReadAhead ρ) : ReadAhead ρ :=
  if r.block.isEmpty && r.next == .full then r.fetch else r

omit [SteadyReader ρ] in
theorem read_eq (r : ReadAhead ρ) {n : Nat} (hn : 0 < n) : r.read n =
    if r.filled.block.isEmpty then r.filled.report
    else (.ok (r.filled.serve n).1, (r.filled.serve n).2) := by
  rw [read, if_neg (Nat.ne_of_gt hn)]
  rfl

theorem delivered_filled (r : ReadAhead ρ) : r.filled.delivered = r.delivered ∧
    (r.filled.block = [] → r.filled.next = .full → r.filled.blockSize = 0) := by
  by_cases hfetch : r.block = [] ∧ r.next = .full
  · have hfilled : r.filled = r.fetch := by
      rw [filled, hfetch.1, hfetch.2]
      rfl
    rw [hfilled]
    exact delivered_fetch hfetch.1 hfetch.2
  · have hfilled : r.filled = r := by
      refine if_neg ?_
      rwa [Bool.and_eq_true, List.isEmpty_iff, beq_iff_eq]
    rw [hfilled]
    exact ⟨rfl, fun hblock hnext => absurd ⟨hblock, hnext⟩ hfetch⟩

theorem delivered_serve (r : ReadAhead ρ) (n : Nat) : r.delivered =
    ((r.serve n).1 ++ (r.serve n).2.delivered.1, (r.serve n).2.delivered.2) := by
  simp only [delivered, serve, ← List.append_assoc, List.take_append_drop]

theorem delivered_report {r : ReadAhead ρ} (hblock : r.block = [])
    (hfull : r.next = .full → r.blockSize = 0) : r.delivered =
      match r.report.1 with
      | .ok _ => ([], none)
      | .error e => if e.kind = .interrupted then r.report.2.delivered else ([], some e) := by
  rw [delivered, hblock, List.nil_append]
  unfold report
  cases hnext : r.next with
  | full => rw [behind, if_pos (Or.inl (hfull hnext))]
  | ended => rfl
  | failed e =>
    dsimp only [delivered]
    rw [hblock]
    rfl

/-- One read, and what is delivered after it. -/
theorem delivered_read (r : ReadAhead ρ) {n : Nat} (hn : 0 < n) :
    r.delivered =
      match (r.read n).1 with
      | .ok [] => ([], none)
      | .ok (b :: data) => (b :: data ++ (r.read n).2.delivered.1, (r.read n).2.delivered.2)
      | .error e => if e.kind = .interrupted then (r.read n).2.delivered else ([], some e) := by
  obtain ⟨hdelivered, hfull⟩ := r.delivered_filled
  rw [← hdelivered, r.read_eq hn]
  cases hblock : r.filled.block with
  | nil =>
    rw [List.isEmpty_nil, if_pos rfl, delivered_report hblock (hfull hblock)]
    unfold report
    cases r.filled.next <;> rfl
  | cons b block =>
    obtain ⟨n, rfl⟩ := Nat.exists_eq_add_of_lt hn
    have hgiven : (r.filled.serve (0 + n + 1)).1 = b :: block.take (0 + n) := by
      rw [serve, hblock]
      rfl
    rw [List.isEmpty_cons, if_neg Bool.false_ne_true, r.filled.delivered_serve (0 + n + 1), hgiven]

instance : SteadyReader (ReadAhead ρ) where
  delivered := delivered
  delivered_read r _ hn := r.delivered_read hn

theorem delivered_new (source : ρ) {blockSize : Nat} (hsize : 0 < blockSize) :
    ∃ ahead, new source blockSize = .ok ahead ∧ SteadyReader.delivered ahead =
      if blockSize ≤ longestBlock then SteadyReader.delivered source else ([], none) := by
  have hne : blockSize ≠ 0 := Nat.ne_of_gt hsize
  refine ⟨⟨source, blockSize, [], .full⟩, if_neg hne, ?_⟩
  show delivered _ = _
  rw [delivered, behind, List.nil_append]
  by_cases hlong : longestBlock < blockSize
  · rw [if_pos (Or.inr hlong), if_neg (Nat.not_le_of_lt hlong)]
  · rw [if_neg (not_or.mpr ⟨hne, hlong⟩), if_pos (Nat.le_of_not_lt hlong)]

/-! ### The chunks -/

/-- **Reading ahead changes no chunk as long as a block can be allocated.**  Whatever
    a scripted reader does and however large the blocks are up to that limit, every
    call to a chunk reader gives the same whether the reader is read ahead or not: the
    same chunk, the same failure, or nothing; and when a call gives no chunk, as many
    bytes have been read.  With longer blocks no call gives anything, not even a
    failure, and no byte is read.  So only a reader that delivers nothing is then read
    ahead unchanged. -/
theorem chunks_unchanged_iff (p : Params) (script : Script) {blockSize : Nat} (hsize : 0 < blockSize) :
    ∃ ahead, new script blockSize = .ok ahead ∧
      ((∀ i, ((ChunkReader.start p ahead).after i).next.1 =
          ((ChunkReader.start p script).after i).next.1) ↔
        blockSize ≤ longestBlock ∨ script.delivered = ([], none)) ∧
      (blockSize ≤ longestBlock → ∀ i,
        (∀ chunk, ((ChunkReader.start p script).after i).next.1 ≠ some (.ok chunk)) →
          ((ChunkReader.start p ahead).after (i + 1)).bytesRead =
            ((ChunkReader.start p script).after (i + 1)).bytesRead) ∧
      (longestBlock < blockSize → ∀ i,
        ((ChunkReader.start p ahead).after i).next.1 = none ∧
          ((ChunkReader.start p ahead).after i).bytesRead = 0) := by
  obtain ⟨ahead, hnew, hdelivered⟩ := delivered_new script hsize
  change _ = if blockSize ≤ longestBlock then script.delivered else _ at hdelivered
  have hahead := ChunkReader.yields_of_steady p ahead
  have hscript : (ChunkReader.start p script).Yields p script.delivered :=
    ChunkReader.yields_of_steady p script
  rw [hdelivered] at hahead
  refine ⟨ahead, hnew, ?_, ?_, ?_⟩
  · constructor
    · intro hsame
      rcases Nat.lt_or_ge longestBlock blockSize with hlong | hfits
      · rw [if_neg (Nat.not_le_of_lt hlong)] at hahead
        have hfirst := (hscript.given 0).symm.trans ((hsame 0).symm.trans (hahead.given 0))
        rw [ChunkReader.expected_nothing, List.getElem?_nil, List.getElem?_eq_none_iff,
          Nat.le_zero, List.length_eq_zero_iff] at hfirst
        exact Or.inr (ChunkReader.expected_eq_nil_iff.mp hfirst)
      · exact Or.inl hfits
    · intro hsame i
      have hwhole : (if blockSize ≤ longestBlock then script.delivered else ([], none)) =
          script.delivered := by
        split
        · rfl
        · rename_i hlong
          exact (hsame.resolve_left hlong).symm
      rw [hahead.given, hscript.given, hwhole]
  · intro hfits i hnone
    rw [if_pos hfits] at hahead
    rw [(hscript.ended i hnone).1]
    refine (hahead.ended i ?_).1
    intro chunk
    rw [hahead.given, ← hscript.given]
    exact hnone chunk
  · intro hlong i
    rw [if_neg (Nat.not_le_of_lt hlong)] at hahead
    constructor
    · rw [hahead.given, ChunkReader.expected_nothing, List.getElem?_nil]
    · exact Nat.le_zero.mp (hahead.bytesRead_le i)

def breakingOff : Script :=
  [.data [1, 2, 3] (some 2), .failure ⟨.interrupted, "interrupted"⟩, .data [4] none,
    .failure ⟨.other, "broken off"⟩, .data [5] none]

theorem chunks_unchanged_iff_breakingOff : 0 < 2 ∧ ∃ ahead, new breakingOff 2 = .ok ahead ∧
    (∀ i, ((ChunkReader.start .standard ahead).after i).next.1 =
      ((ChunkReader.start .standard breakingOff).after i).next.1) ∧
    ∀ i, (∀ chunk, ((ChunkReader.start .standard breakingOff).after i).next.1 ≠ some (.ok chunk)) →
      ((ChunkReader.start .standard ahead).after (i + 1)).bytesRead =
        ((ChunkReader.start .standard breakingOff).after (i + 1)).bytesRead := by
  have hsize : 0 < 2 := by decide
  have hfits : 2 ≤ longestBlock := by decide
  obtain ⟨ahead, hnew, hsame, hread, -⟩ := chunks_unchanged_iff .standard breakingOff hsize
  exact ⟨hsize, ahead, hnew, hsame.mpr (Or.inl hfits), hread hfits⟩

def hello : Script := [.data [104, 101, 108, 108, 111] none]

/-- The largest word as the block size: the only chunk of the source is lost. -/
theorem chunks_lost_largestWord : ∃ ahead, new hello (2 ^ 64 - 1) = .ok ahead ∧
    (ChunkReader.start .standard ahead).next.1 = none ∧
    (ChunkReader.start .standard hello).next.1 =
      some (.ok ⟨[104, 101, 108, 108, 111], some 0, some (Digest.of [104, 101, 108, 108, 111])⟩) := by
  obtain ⟨ahead, hnew, hdelivered⟩ := delivered_new hello (show 0 < 2 ^ 64 - 1 by decide)
  have hahead := (ChunkReader.yields_of_steady .standard ahead).given 0
  have hscript := (ChunkReader.yields_of_steady .standard hello).given 0
  rw [hdelivered, if_neg (by decide), ChunkReader.expected_nothing] at hahead
  refine ⟨ahead, hnew, hahead, hscript.trans ?_⟩
  have hpieces : pieces .standard [104, 101, 108, 108, 111] = [(0, [104, 101, 108, 108, 111])] := by
    decide
  show (ChunkReader.expected .standard ([104, 101, 108, 108, 111], none))[0]? = _
  rw [ChunkReader.expected, chunkBytes_eq, hpieces]
  rfl

end ReadAhead

end DedupArchive
