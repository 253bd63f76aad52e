/-
  DedupArchive/Proofs/Reading/Delivered.lean
  ==========================================
  **What a reader delivers, and the chunks of it.**

  A reader delivers bytes until a read gives none or fails; interrupted reads do
  not count.  A reader is steady if this does not depend on how many bytes are
  asked for at a time; scripted readers are.  The chunks of a steady reader depend
  on what it delivers and on nothing else: not on how many bytes a read gives, nor
  on how often it is interrupted.  If the reader fails, the chunks are the pieces
  that a cut ended before.
-/
import DedupArchive.Proofs.Chunking.Stream
import DedupArchive.Reading.ChunkReader
import DedupArchive.Reading.Script

namespace DedupArchive

/-! ### What is delivered -/

namespace Script

/-- All bytes before the first read that gives none or fails, and the failure. -/
def delivered : Script → Bytes × Option IoError
  | [] => ([], none)
  | .pending :: rest => delivered rest
  | .failure e :: rest => if e.kind = .interrupted then delivered rest else ([], some e)
  | .data bytes limit :: rest =>
    if bytes = [] ∨ limit = some 0 then ([], none)
    else (bytes ++ (delivered rest).1, (delivered rest).2)

theorem delivered_single (data : Bytes) : delivered [.data data none] = (data, none) := by
  by_cases hempty : data = []
  · rw [hempty]
    rfl
  · rw [delivered, if_neg, delivered, List.append_nil]
    simp [hempty]

/-- A step gives some of its bytes; what is left of them stays in front. -/
theorem give_cases {bytes : Bytes} {limit : Option Nat} (rest : Script) {n : Nat} (hn : 0 < n)
    (hlimit : limit ≠ some 0) : ∃ size, 0 < size ∧
      (bytes.drop size = [] ∧ give bytes limit rest n = (bytes.take size, rest) ∨
        bytes.drop size ≠ [] ∧
          give bytes limit rest n = (bytes.take size, .data (bytes.drop size) limit :: rest)) := by
  cases limit with
  | none =>
    refine ⟨n, hn, ?_⟩
    simp only [give]
    split
    · rename_i hleft
      exact Or.inl ⟨hleft, rfl⟩
    · rename_i hleft
      exact Or.inr ⟨hleft, rfl⟩
  | some limit =>
    rw [ne_eq, Option.some.injEq] at hlimit
    refine ⟨min n limit, by omega, ?_⟩
    simp only [give]
    split
    · rename_i hleft
      exact Or.inl ⟨hleft, rfl⟩
    · rename_i hleft
      exact Or.inr ⟨hleft, rfl⟩

/-- A step that gives no bytes. -/
theorem give_end {bytes : Bytes} {limit : Option Nat} (rest : Script) (n : Nat)
    (hend : bytes = [] ∨ limit = some 0) : (give bytes limit rest n).1 = [] := by
  rcases hend with rfl | rfl
  · simp only [give, List.drop_nil, List.take_nil]
  · simp only [give, Nat.min_zero, List.take_zero]
    split <;> rfl

/-- What one read takes from what is delivered. -/
theorem delivered_give {bytes : Bytes} {limit : Option Nat} (rest : Script) {n : Nat} (hn : 0 < n)
    (hbytes : bytes ≠ []) (hlimit : limit ≠ some 0) :
    (give bytes limit rest n).1 ≠ [] ∧ delivered (.data bytes limit :: rest) =
      ((give bytes limit rest n).1 ++ (delivered (give bytes limit rest n).2).1,
        (delivered (give bytes limit rest n).2).2) := by
  have hwhole : delivered (.data bytes limit :: rest) =
      (bytes ++ (delivered rest).1, (delivered rest).2) := by
    rw [delivered, if_neg (not_or.mpr ⟨hbytes, hlimit⟩)]
  obtain ⟨size, hsize, hgive⟩ := @give_cases bytes _ rest n hn hlimit
  have htake : bytes.take size ≠ [] := by
    rw [← List.length_pos_iff] at hbytes ⊢
    rw [List.length_take]
    omega
  rcases hgive with ⟨hleft, hgive⟩ | ⟨hleft, hgive⟩
  · rw [hgive, hwhole]
    refine ⟨htake, ?_⟩
    rw [List.take_of_length_le (List.drop_eq_nil_iff.mp hleft)]
  · rw [hgive, hwhole]
    refine ⟨htake, ?_⟩
    rw [delivered, if_neg (not_or.mpr ⟨hleft, hlimit⟩), ← List.append_assoc, List.take_append_drop]

/-- One read of a script, and what is delivered after it. -/
theorem delivered_read (s : Script) {n : Nat} (hn : 0 < n) :
    delivered s =
      match (read s n).1 with
      | .ok [] => ([], none)
      | .ok (b :: data) =>
        (b :: data ++ (delivered (read s n).2).1, (delivered (read s n).2).2)
      | .error e => if e.kind = .interrupted then delivered (read s n).2 else ([], some e) := by
  induction s with
  | nil => rfl
  | cons step rest ih =>
    cases step with
    | pending => exact ih
    | failure e => rfl
    | data bytes limit =>
      by_cases hend : bytes = [] ∨ limit = some 0
      · simp only [read, give_end rest n hend, delivered, if_pos hend]
      · rw [not_or] at hend
        obtain ⟨hgiven, hdelivered⟩ := delivered_give rest hn hend.1 hend.2
        obtain ⟨b, data, hdata⟩ := List.exists_cons_of_ne_nil hgiven
        rw [hdelivered]
        simp only [read, hdata]

end Script

/-- A reader that delivers the same however many bytes are asked for at a time: all
    bytes before the first read that gives none or fails, and the failure. -/
class SteadyReader (ρ : Type) [Reader ρ] where
  delivered : ρ → Bytes × Option IoError
  delivered_read : ∀ (r : ρ) {n : Nat}, 0 < n → delivered r =
    match (Reader.read r n).1 with
    | .ok [] => ([], none)
    | .ok (b :: data) =>
      (b :: data ++ (delivered (Reader.read r n).2).1, (delivered (Reader.read r n).2).2)
    | .error e => if e.kind = .interrupted then delivered (Reader.read r n).2 else ([], some e)

instance : SteadyReader Script where
  delivered := Script.delivered
  delivered_read s _ hn := s.delivered_read hn

/-! ### The chunks of a reader -/

theorem bufferSize_pos : 0 < bufferSize := by decide

namespace ChunkReader

variable {ρ : Type} [Reader ρ] [SteadyReader ρ]

/-- What a chunker still makes of what is delivered: more chunks, and the failure. -/
def rest (s : Chunker) : Bytes × Option IoError → List Chunk × Option ChunkError
  | (data, none) => ((s.push data).1 ++ (s.push data).2.finish.1.toList, none)
  | (data, some e) => ((s.push data).1, some (.io e))

def toCome (r : ChunkReader ρ) : List Chunk × Option ChunkError :=
  if r.finished then (r.ready, none)
  else (r.ready ++ (rest r.chunker (SteadyReader.delivered r.source)).1,
    (rest r.chunker (SteadyReader.delivered r.source)).2)

theorem rest_append (s : Chunker) (data : Bytes) (d : Bytes × Option IoError) :
    rest s (data ++ d.1, d.2) =
      ((s.push data).1 ++ (rest (s.push data).2 d).1, (rest (s.push data).2 d).2) := by
  obtain ⟨more, failure⟩ := d
  obtain ⟨hchunks, hview⟩ := s.push_append data more
  cases failure with
  | none => simp only [rest, hchunks, Chunker.finish_view, hview, List.append_assoc]
  | some e => simp only [rest, hchunks]

theorem rest_nil (s : Chunker) : rest s ([], none) = (s.finish.1.toList, none) := by
  obtain ⟨hchunks, hview⟩ := s.push_view []
  have hlast : (s.push []).2.finish.1 = s.finish.1 := by
    rw [Chunker.finish_view, Chunker.finish_view, hview]
    rfl
  rw [rest, hchunks, hlast]
  rfl

/-- Giving one chunk takes it from what is to come. -/
theorem toCome_next (r : ChunkReader ρ) :
    r.toCome =
      match r.next.1 with
      | none => ([], none)
      | some (.ok chunk) => (chunk :: r.next.2.toCome.1, r.next.2.toCome.2)
      | some (.error e) => ([], some e) := by
  have hread := SteadyReader.delivered_read r.source bufferSize_pos
  fun_induction next r with
  | case1 r chunk ready hready =>
    simp only [toCome, hready]
    split <;> rfl
  | case2 r hready hfinished =>
    simp only [toCome, hready, hfinished, if_true]
  | case3 r hready hfinished hend last chunker hlast =>
    rw [hend] at hread
    have hlast' : last = r.chunker.finish.1 := by rw [hlast]
    simp only [toCome, if_neg hfinished, hready, hread, rest_nil, hlast', List.nil_append]
    cases r.chunker.finish.1 <;> rfl
  | case4 r hready hfinished b data hdata ready chunker hpush ih =>
    rw [hdata] at hread
    rw [← ih (SteadyReader.delivered_read _ bufferSize_pos)]
    rw [toCome, if_neg hfinished, hready, hread, rest_append, hpush]
    rfl
  | case5 r hready hfinished e herror hinterrupted ih =>
    rw [herror] at hread
    simp only [hinterrupted, if_true] at hread
    rw [← ih (SteadyReader.delivered_read _ bufferSize_pos)]
    rw [toCome, if_neg hfinished, hread]
    simp only [toCome, if_neg hfinished]
  | case6 r hready hfinished e herror hfails =>
    rw [herror] at hread
    simp only [hfails, if_false] at hread
    rw [toCome, if_neg hfinished, hready, hread]
    rfl

/-- Collecting gives everything that is to come. -/
theorem collect_eq (r : ChunkReader ρ) (given : List Chunk) :
    r.collect given = (given.reverse ++ r.toCome.1, r.toCome.2) := by
  fun_induction collect r given with
  | case1 r given h =>
    rw [toCome_next, h, List.append_nil]
  | case2 r given chunk h ih =>
    rw [ih, toCome_next r, h, List.reverse_cons, List.append_assoc, List.singleton_append]
  | case3 r given e h =>
    rw [toCome_next, h, List.append_nil]

end ChunkReader

/-- The chunks of a reader are those of what it delivers. -/
theorem chunksOf_delivered {ρ : Type} [Reader ρ] [SteadyReader ρ] (p : Params) (source : ρ) :
    chunksOf p source = ChunkReader.rest (.start p) (SteadyReader.delivered source) := by
  show (ChunkReader.start p source).collect [] = _
  rw [ChunkReader.collect_eq]
  rfl

theorem chunksOf_script (p : Params) (script : Script) :
    chunksOf p script = ChunkReader.rest (.start p) script.delivered := chunksOf_delivered p script

/-- A reader that does not fail is cut like the byte string that it delivers. -/
theorem chunksOf_of_delivered {p : Params} {script : Script} {data : Bytes}
    (h : script.delivered = (data, none)) :
    chunksOf p script = ((pieces p data).map (Chunker.ofPiece p), none) := by
  rw [chunksOf_script, h, ← chunkBytes_eq]
  rfl

/-- A reader that fails gives the pieces that a cut ended before. -/
theorem chunksOf_of_failure {p : Params} {script : Script} {data : Bytes} {e : IoError}
    (h : script.delivered = (data, some e)) :
    chunksOf p script = ((closedPieces p data).map (Chunker.ofPiece p), some (.io e)) := by
  rw [chunksOf_script, h, ← (push_start p data).1]
  rfl

end DedupArchive
