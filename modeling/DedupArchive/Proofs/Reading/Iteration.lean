/-
  DedupArchive/Proofs/Reading/Iteration.lean
  ==========================================
  **A chunk reader, call by call.**

  The calls to a chunk reader give, one after the other, the chunks of what its
  reader delivers and then nothing; or, if the reader fails, the chunks that end at
  a cut, the failure once, and then nothing.  A call that gives no chunk has found
  the end, and from then on the reader is not asked for anything.  The count of the
  bytes read never runs behind the chunks that have been given.
-/
import DedupArchive.Proofs.Chunking.Sessions
import DedupArchive.Proofs.Reading.Delivered

namespace DedupArchive.ChunkReader

variable {ρ : Type} [Reader ρ]

/-! ### Calls -/

theorem next_of_read {r : ChunkReader ρ} (hready : r.ready = []) (hfinished : r.finished = false) :
    r.next =
      match (Reader.read r.source bufferSize).1 with
      | .ok [] => (r.chunker.finish.1.map .ok,
          ⟨(Reader.read r.source bufferSize).2, r.chunker.finish.2, [], r.bytesRead, true⟩)
      | .ok (b :: data) => next ⟨(Reader.read r.source bufferSize).2, (r.chunker.push (b :: data)).2,
          (r.chunker.push (b :: data)).1, r.bytesRead + (b :: data).length, false⟩
      | .error e =>
        if e.kind = .interrupted then
          next ⟨(Reader.read r.source bufferSize).2, r.chunker, [], r.bytesRead, false⟩
        else
          (some (.error (.io e)),
            ⟨(Reader.read r.source bufferSize).2, r.chunker.reset, [], r.bytesRead, true⟩) := by
  obtain ⟨source, chunker, ready, bytesRead, finished⟩ := r
  cases hready
  cases hfinished
  rw [next]
  dsimp only
  rcases Reader.read source bufferSize with ⟨(_ | _ | _), rest⟩ <;> rfl

def after (r : ChunkReader ρ) : Nat → ChunkReader ρ
  | 0 => r
  | calls + 1 => r.next.2.after calls

theorem after_succ (r : ChunkReader ρ) (calls : Nat) :
    r.after (calls + 1) = (r.after calls).next.2 := by
  induction calls generalizing r with
  | zero => rfl
  | succ calls ih => exact ih r.next.2

/-- Nothing is given any more and nothing is read, whatever there is to read. -/
def Closed (r : ChunkReader ρ) : Prop :=
  ∀ source : ρ, next { r with source } = (none, { r with source })

theorem closed_of_finished {r : ChunkReader ρ} (hready : r.ready = []) (hfinished : r.finished = true) :
    r.Closed := by
  intro source
  rw [next]
  simp only [hready, hfinished, if_true]

/-- A call that gives no chunk finds the end, or was made after it. -/
theorem finished_next {r : ChunkReader ρ} (h : ∀ chunk, r.next.1 ≠ some (.ok chunk)) :
    r.next.2.ready = [] ∧ r.next.2.finished = true := by
  fun_induction next r with
  | case1 r chunk ready hready => exact absurd rfl (h chunk)
  | case2 r hready hfinished => exact ⟨hready, hfinished⟩
  | case3 r hready hfinished hend last chunker hlast => exact ⟨hready, rfl⟩
  | case4 r hready hfinished b data hdata ready chunker hpush ih => exact ih h
  | case5 r hready hfinished e herror hinterrupted ih => exact ih h
  | case6 r hready hfinished e herror hfails => exact ⟨hready, rfl⟩

theorem Closed.after {r : ChunkReader ρ} (h : r.Closed) (calls : Nat) : r.after calls = r := by
  induction calls with
  | zero => rfl
  | succ calls ih =>
    have hnext : r.next.2 = r := congrArg Prod.snd (h r.source)
    rw [after_succ, ih, hnext]

theorem after_add (r : ChunkReader ρ) (calls more : Nat) :
    r.after (calls + more) = (r.after calls).after more := by
  induction calls generalizing r with
  | zero => rw [Nat.zero_add]; rfl
  | succ calls ih =>
    rw [Nat.add_right_comm]
    exact ih r.next.2

/-! ### What the calls give -/

def answers (r : ChunkReader ρ) (calls : Nat) : List (Option (Except ChunkError Chunk)) :=
  (List.range calls).map fun i => (r.after i).next.1

theorem answers_succ (r : ChunkReader ρ) (calls : Nat) :
    r.answers (calls + 1) = r.answers calls ++ [(r.after calls).next.1] := by
  rw [answers, List.range_succ, List.map_append]
  rfl

def outcomes (d : List Chunk × Option ChunkError) : List (Except ChunkError Chunk) :=
  d.1.map .ok ++ d.2.toList.map .error

/-- What is to be given for what is delivered: all chunks, or those that end at a
    cut and the failure. -/
def expected (p : Params) : Bytes × Option IoError → List (Except ChunkError Chunk)
  | (data, none) => (chunkBytes p data).map .ok
  | (data, some e) => ((chunkBytes p data).filter (endsAtCut p data)).map .ok ++ [.error (.io e)]

theorem outcomes_rest_start (p : Params) (d : Bytes × Option IoError) :
    outcomes (rest (.start p) d) = expected p d := by
  obtain ⟨data, failure⟩ := d
  cases failure with
  | none => exact List.append_nil _
  | some e =>
    rw [expected, filter_endsAtCut, ← (push_start p data).1]
    rfl

theorem expected_nothing (p : Params) : expected p ([], none) = [] := by
  rw [expected, chunkBytes_eq]
  rfl

theorem expected_eq_nil_iff {p : Params} {d : Bytes × Option IoError} :
    expected p d = [] ↔ d = ([], none) := by
  constructor
  · obtain ⟨data, failure⟩ := d
    cases failure with
    | none =>
      intro h
      rw [expected, List.map_eq_nil_iff, chunkBytes_eq, List.map_eq_nil_iff] at h
      have hdata := flatten_pieces p data
      rw [h] at hdata
      rw [← hdata]
      rfl
    | some e => simp [expected]
  · rintro rfl
    exact expected_nothing p

section Steady

variable [SteadyReader ρ] (r : ChunkReader ρ)

/-- A call gives the first of what is to come, and leaves the others. -/
theorem next_outcomes : r.next.1 = (outcomes r.toCome).head? ∧
    outcomes r.next.2.toCome = (outcomes r.toCome).tail := by
  have htoCome := r.toCome_next
  have hend (h : ∀ chunk, r.next.1 ≠ some (.ok chunk)) : r.next.2.toCome = ([], none) := by
    obtain ⟨hready, hfinished⟩ := finished_next h
    rw [toCome, if_pos hfinished, hready]
  cases hgiven : r.next.1 with
  | none =>
    rw [hgiven] at htoCome
    have hnone (chunk : Chunk) : r.next.1 ≠ some (.ok chunk) := by
      rw [hgiven]
      exact (Option.some_ne_none _).symm
    rw [htoCome, hend hnone]
    exact ⟨rfl, rfl⟩
  | some given =>
    rw [hgiven] at htoCome
    cases given with
    | ok chunk =>
      rw [htoCome]
      exact ⟨rfl, rfl⟩
    | error e =>
      have hnone (chunk : Chunk) : r.next.1 ≠ some (.ok chunk) := by
        rw [hgiven]
        intro h
        cases h
      rw [htoCome, hend hnone]
      exact ⟨rfl, rfl⟩

theorem next_after (i : Nat) : (r.after i).next.1 = (outcomes r.toCome)[i]? := by
  induction i generalizing r with
  | zero =>
    rw [← List.head?_eq_getElem?]
    exact r.next_outcomes.1
  | succ i ih =>
    rw [after, ih, r.next_outcomes.2, List.getElem?_tail]

/-! ### How many bytes have been read -/

def unread : Bytes := if r.finished then [] else (SteadyReader.delivered r.source).1

/-- The chunk reader is in the middle of a reader that has given these bytes. -/
structure HasRead (r : ChunkReader ρ) (p : Params) (seen : Bytes) : Prop where
  bytesRead : r.bytesRead = seen.length
  chunker : r.finished = false → r.chunker.Tracks p seen (lastCut 0 (cuts p seen))
  ready : ∀ chunk ∈ r.ready, chunk.last ≤ seen.length

variable {r} {p : Params} {seen : Bytes}

omit [Reader ρ] [SteadyReader ρ] in
theorem hasRead_start (p : Params) (source : ρ) : (start p source).HasRead p [] where
  bytesRead := rfl
  chunker _ := Chunker.tracks_start p
  ready _ hchunk := absurd hchunk List.not_mem_nil

omit [Reader ρ] [SteadyReader ρ] in
theorem last_le_of_push {s : Chunker} (h : s.Tracks p seen (lastCut 0 (cuts p seen))) {part : Bytes}
    {chunk : Chunk} (hchunk : chunk ∈ (s.push part).1) : chunk.last ≤ (seen ++ part).length := by
  rw [(h.push_part part).1, List.mem_map] at hchunk
  obtain ⟨piece, hpiece, rfl⟩ := hchunk
  have hcut : pieceEnd piece ∈ newCuts p seen part := by
    rw [← map_pieceEnd_newPieces]
    exact List.mem_map_of_mem hpiece
  rw [last_ofPiece, List.length_append]
  exact (mem_newCuts_bounds hcut).2

omit [Reader ρ] [SteadyReader ρ] in
theorem last_le_of_finish {s : Chunker} {last : Nat} (h : s.Tracks p seen last) {chunk : Chunk}
    (hchunk : s.finish.1 = some chunk) : chunk.last ≤ seen.length := by
  have hlast : last ≤ seen.length := Cutter.Tracks.last_le h
  rw [h.finish_eq, h.offset] at hchunk
  split at hchunk
  · cases hchunk
  · cases hchunk
    show last + (seen.drop last).length ≤ seen.length
    rw [List.length_drop]
    omega

/-- **One call.**  It reads some of the bytes that are still to be read, and a
    chunk that it gives ends in those that have been. -/
theorem HasRead.next (h : r.HasRead p seen) : ∃ more, r.next.2.HasRead p (seen ++ more) ∧
    r.unread = more ++ r.next.2.unread ∧
      ∀ chunk, r.next.1 = some (.ok chunk) → chunk.last ≤ (seen ++ more).length := by
  have hread := SteadyReader.delivered_read r.source bufferSize_pos
  fun_induction ChunkReader.next r generalizing seen with
  | case1 r chunk ready hready =>
    refine ⟨[], ?_, rfl, ?_⟩
    · rw [List.append_nil]
      refine ⟨h.bytesRead, h.chunker, ?_⟩
      intro c hc
      exact h.ready c (hready ▸ List.mem_cons_of_mem chunk hc)
    · intro c hc
      cases hc
      rw [List.append_nil]
      exact h.ready chunk (hready ▸ List.mem_cons_self)
  | case2 r hready hfinished =>
    refine ⟨[], ?_, rfl, ?_⟩
    · rwa [List.append_nil]
    · intro chunk hchunk
      cases hchunk
  | case3 r hready hfinished hend last chunker hlast =>
    rw [hend] at hread
    have hlast' : r.chunker.finish.1 = last := congrArg Prod.fst hlast
    refine ⟨[], ?_, ?_, ?_⟩
    · rw [List.append_nil]
      exact ⟨h.bytesRead, Bool.noConfusion, h.ready⟩
    · rw [unread, if_neg hfinished, hread]
      rfl
    · intro chunk hchunk
      rw [List.append_nil]
      refine last_le_of_finish (h.chunker (Bool.eq_false_iff.mpr hfinished)) ?_
      rw [hlast']
      cases last with
      | none => cases hchunk
      | some c =>
        cases hchunk
        rfl
  | case4 r hready hfinished b data hdata ready chunker hpush ih =>
    rw [hdata] at hread
    have htracks := h.chunker (Bool.eq_false_iff.mpr hfinished)
    have hnow : HasRead ⟨(Reader.read r.source bufferSize).2, chunker, ready,
        r.bytesRead + (b :: data).length, false⟩ p (seen ++ b :: data) := by
      refine ⟨?_, ?_, ?_⟩
      · rw [List.length_append, ← h.bytesRead]
      · intro _
        have hpushed := (htracks.push_part (b :: data)).2
        rwa [hpush] at hpushed
      · intro chunk hchunk
        refine last_le_of_push htracks ?_
        rwa [hpush]
    obtain ⟨more, hnext, hunread, hgiven⟩ := ih hnow (SteadyReader.delivered_read _ bufferSize_pos)
    rw [List.append_assoc] at hnext hgiven
    refine ⟨b :: data ++ more, hnext, ?_, hgiven⟩
    rw [List.append_assoc, ← hunread, unread, if_neg hfinished, hread]
    rfl
  | case5 r hready hfinished e herror hinterrupted ih =>
    rw [herror] at hread
    simp only [hinterrupted, if_true] at hread
    obtain ⟨more, hnext, hunread, hgiven⟩ := @ih seen ⟨h.bytesRead, h.chunker, h.ready⟩
      (SteadyReader.delivered_read _ bufferSize_pos)
    refine ⟨more, hnext, ?_, hgiven⟩
    rw [← hunread, unread, unread, if_neg hfinished, hread, if_neg hfinished]
  | case6 r hready hfinished e herror hfails =>
    rw [herror] at hread
    simp only [hfails, if_false] at hread
    refine ⟨[], ?_, ?_, ?_⟩
    · rw [List.append_nil]
      exact ⟨h.bytesRead, Bool.noConfusion, h.ready⟩
    · rw [unread, if_neg hfinished, hread]
      rfl
    · intro chunk hchunk
      cases hchunk

/-- **Any number of calls.** -/
theorem exists_hasRead_after (p : Params) (source : ρ) (i : Nat) :
    ∃ seen, ((start p source).after i).HasRead p seen ∧
      (SteadyReader.delivered source).1 = seen ++ ((start p source).after i).unread := by
  induction i with
  | zero => exact ⟨[], hasRead_start p source, rfl⟩
  | succ i ih =>
    obtain ⟨seen, hseen, hdelivered⟩ := ih
    obtain ⟨more, hnext, hunread, -⟩ := hseen.next
    rw [after_succ]
    refine ⟨seen ++ more, hnext, ?_⟩
    rw [hdelivered, hunread, List.append_assoc]

/-! ### All calls -/

/-- What the calls to a chunk reader show when its reader delivers these bytes and
    this failure: call by call what is to be given, and then nothing.  What has been
    given has been read, nothing is counted that is not delivered, and a call that
    gives no chunk leaves everything read and nothing to read or to give. -/
structure Yields (r : ChunkReader ρ) (p : Params) (d : Bytes × Option IoError) : Prop where
  given : ∀ i, (r.after i).next.1 = (expected p d)[i]?
  covers : ∀ i chunk, (r.after i).next.1 = some (.ok chunk) → chunk.last ≤ (r.after (i + 1)).bytesRead
  bytesRead_le : ∀ i, (r.after i).bytesRead ≤ d.1.length
  ended : ∀ i, (∀ chunk, (r.after i).next.1 ≠ some (.ok chunk)) →
    (r.after (i + 1)).bytesRead = d.1.length ∧ ∀ j, i < j → (r.after j).Closed

theorem yields_of_steady (p : Params) (source : ρ) :
    (start p source).Yields p (SteadyReader.delivered source) where
  given i := by
    rw [next_after, ← outcomes_rest_start]
    rfl
  covers i chunk hchunk := by
    obtain ⟨seen, hseen, -⟩ := exists_hasRead_after p source i
    obtain ⟨more, hnext, -, hlast⟩ := hseen.next
    rw [after_succ, hnext.bytesRead]
    exact hlast chunk hchunk
  bytesRead_le i := by
    obtain ⟨seen, hseen, hdelivered⟩ := exists_hasRead_after p source i
    rw [hseen.bytesRead, hdelivered, List.length_append]
    exact Nat.le_add_right _ _
  ended i hnone := by
    obtain ⟨hready, hfinished⟩ := finished_next hnone
    rw [← after_succ] at hready hfinished
    constructor
    · obtain ⟨seen, hseen, hdelivered⟩ := exists_hasRead_after p source (i + 1)
      rw [unread, if_pos hfinished, List.append_nil] at hdelivered
      rw [hseen.bytesRead, hdelivered]
    · intro j hj
      obtain ⟨more, rfl⟩ := Nat.exists_eq_add_of_lt hj
      have hclosed := closed_of_finished hready hfinished
      rw [Nat.add_right_comm, after_add, hclosed.after]
      exact hclosed

end Steady

/-- **A chunk reader gives the chunks of what its reader delivers.**  Whatever a
    scripted reader does, the calls give the chunks of the bytes delivered before
    the first read that gives none or fails, and then nothing; or, if it fails, those
    that end at a cut and the failure once, and then nothing.  What has been given
    has been read, and after the end all that was delivered has, and no call reads
    anything more. -/
theorem yields_delivered (p : Params) (script : Script) :
    (start p script).Yields p script.delivered :=
  yields_of_steady p script

end DedupArchive.ChunkReader
