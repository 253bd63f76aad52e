/-
  DedupArchive/Proofs/Chunking/Prefix.lean
  ========================================
  **More bytes move no cut.**

  Whether a position is cut depends on nothing behind it, so the cuts of a byte
  string are the first cuts of every longer one, and the pieces that they end
  are its first pieces.  Which pieces those are can be read off a piece itself:
  it ends where a cut is.
-/
import DedupArchive.Proofs.Chunking.Stream
import Mathlib.Algebra.GroupWithZero.Nat

namespace DedupArchive

/-! ### Cuts -/

theorem cutsFrom_append (p : Params) {data : Bytes} (more : Bytes) (last : Nat) {position count : Nat}
    (hle : position + count ≤ data.length) :
    cutsFrom p (data ++ more) last position count = cutsFrom p data last position count := by
  induction count generalizing last position with
  | zero => rfl
  | succ count ih =>
    have hnext : position + 1 + count ≤ data.length := by omega
    rw [cutsFrom, cutsFrom, cutsAt_append more last (by omega), ih _ hnext, ih _ hnext]

/-- A scan goes on from where it stands. -/
theorem cutsFrom_add (p : Params) (data : Bytes) (last position count more : Nat) :
    cutsFrom p data last position (count + more) = cutsFrom p data last position count ++
      cutsFrom p data (lastCut last (cutsFrom p data last position count)) (position + count) more := by
  induction count generalizing last position with
  | zero => rw [Nat.zero_add]; rfl
  | succ count ih =>
    have hend : position + (count + 1) = position + 1 + count := by omega
    rw [Nat.add_right_comm, cutsFrom, cutsFrom, hend]
    split
    · rw [ih, lastCut_cons, List.cons_append]
    · exact ih _ _

theorem lt_of_mem_cutsFrom {p : Params} {data : Bytes} {last position count cut : Nat}
    (hcut : cut ∈ cutsFrom p data last position count) : position < cut := by
  induction count generalizing last position with
  | zero => cases hcut
  | succ count ih =>
    rw [cutsFrom] at hcut
    split at hcut
    · rcases List.mem_cons.mp hcut with rfl | hcut
      · exact Nat.lt_succ_self _
      · exact Nat.lt_of_succ_lt (ih hcut)
    · exact Nat.lt_of_succ_lt (ih hcut)

def newCuts (p : Params) (data more : Bytes) : List Nat :=
  cutsFrom p (data ++ more) (lastCut 0 (cuts p data)) data.length more.length

theorem cuts_append (p : Params) (data more : Bytes) :
    cuts p (data ++ more) = cuts p data ++ newCuts p data more := by
  have hold : cutsFrom p (data ++ more) 0 0 data.length = cuts p data :=
    cutsFrom_append p more 0 (Nat.le_of_eq (Nat.zero_add _))
  rw [cuts, List.length_append, cutsFrom_add, hold, Nat.zero_add, newCuts]

theorem mem_newCuts_bounds {p : Params} {data more : Bytes} {cut : Nat}
    (hcut : cut ∈ newCuts p data more) : data.length < cut ∧ cut ≤ data.length + more.length := by
  refine ⟨lt_of_mem_cutsFrom hcut, ?_⟩
  have hmem : cut ∈ cuts p (data ++ more) := by
    rw [cuts_append]
    exact List.mem_append_right _ hcut
  rw [← List.length_append]
  exact (cuts_ascend p (data ++ more)).2 cut hmem

/-! ### Pieces that a cut ends -/

theorem closedFrom_concat (data : Bytes) (position : Nat) (first second : List Nat) :
    closedFrom data position (first ++ second) =
      closedFrom data position first ++ closedFrom data (lastCut position first) second := by
  induction first generalizing position with
  | nil => rfl
  | cons cut rest ih => rw [List.cons_append, closedFrom, closedFrom, ih, lastCut_cons, List.cons_append]

theorem closedFrom_append {data : Bytes} (more : Bytes) {position : Nat} {cuts : List Nat}
    (hascend : (position :: cuts).Pairwise (· < ·)) (hbound : ∀ cut ∈ cuts, cut ≤ data.length) :
    closedFrom (data ++ more) position cuts = closedFrom data position cuts := by
  induction cuts generalizing position with
  | nil => rfl
  | cons cut rest ih =>
    obtain ⟨hfirst, hrest⟩ := List.pairwise_cons.mp hascend
    have hlt : position < cut := hfirst cut List.mem_cons_self
    have hle : cut ≤ data.length := hbound cut List.mem_cons_self
    have hpiece : ((data ++ more).drop position).take (cut - position) =
        (data.drop position).take (cut - position) := by
      rw [List.drop_append_of_le_length (by omega), List.take_append_of_le_length]
      rw [List.length_drop]
      omega
    rw [closedFrom, closedFrom, hpiece, ih hrest fun c hc => hbound c (List.mem_cons_of_mem cut hc)]

def newPieces (p : Params) (data more : Bytes) : List (Nat × Bytes) :=
  closedFrom (data ++ more) (lastCut 0 (cuts p data)) (newCuts p data more)

/-- **Pieces that a cut has ended stay.** -/
theorem closedPieces_append (p : Params) (data more : Bytes) :
    closedPieces p (data ++ more) = closedPieces p data ++ newPieces p data more := by
  obtain ⟨hascend, hbound⟩ := cuts_ascend p data
  rw [closedPieces, cuts_append, closedFrom_concat, closedFrom_append more hascend hbound]
  rfl

def pieceEnd (piece : Nat × Bytes) : Nat := piece.1 + piece.2.length

theorem map_pieceEnd_closedFrom {data : Bytes} {position : Nat} {cuts : List Nat}
    (hascend : (position :: cuts).Pairwise (· < ·)) (hbound : ∀ cut ∈ cuts, cut ≤ data.length) :
    (closedFrom data position cuts).map pieceEnd = cuts := by
  induction cuts generalizing position with
  | nil => rfl
  | cons cut rest ih =>
    obtain ⟨hfirst, hrest⟩ := List.pairwise_cons.mp hascend
    have hlt : position < cut := hfirst cut List.mem_cons_self
    have hle : cut ≤ data.length := hbound cut List.mem_cons_self
    have hend : pieceEnd (position, (data.drop position).take (cut - position)) = cut := by
      rw [pieceEnd, List.length_take, List.length_drop]
      omega
    rw [closedFrom, List.map_cons, hend, ih hrest fun c hc => hbound c (List.mem_cons_of_mem cut hc)]

theorem map_pieceEnd_closedPieces (p : Params) (data : Bytes) :
    (closedPieces p data).map pieceEnd = cuts p data :=
  map_pieceEnd_closedFrom (cuts_ascend p data).1 (cuts_ascend p data).2

theorem map_pieceEnd_newPieces (p : Params) (data more : Bytes) :
    (newPieces p data more).map pieceEnd = newCuts p data more := by
  have h := map_pieceEnd_closedPieces p (data ++ more)
  rw [closedPieces_append, List.map_append, map_pieceEnd_closedPieces, cuts_append] at h
  exact List.append_cancel_left h

/-- No cut is behind the last one. -/
theorem le_lastCut {position : Nat} {cuts : List Nat}
    (hascend : (position :: cuts).Pairwise (· < ·)) :
    ∀ cut ∈ position :: cuts, cut ≤ lastCut position cuts := by
  induction cuts generalizing position with
  | nil =>
    intro cut hcut
    exact Nat.le_of_eq (List.mem_singleton.mp hcut)
  | cons first rest ih =>
    obtain ⟨hposition, hrest⟩ := List.pairwise_cons.mp hascend
    intro cut hcut
    rw [lastCut_cons]
    rcases List.mem_cons.mp hcut with rfl | hcut
    · exact Nat.le_trans (Nat.le_of_lt (hposition first List.mem_cons_self))
        (ih hrest first List.mem_cons_self)
    · exact ih hrest cut hcut

theorem lastCut_append (position : Nat) (first second : List Nat) :
    lastCut position (first ++ second) = lastCut (lastCut position first) second := by
  induction first generalizing position with
  | nil => rfl
  | cons cut rest ih => rw [List.cons_append, lastCut_cons, lastCut_cons, ih]

/-- The pieces that a cut ends reach up to the last cut. -/
theorem length_flatten_closedFrom {data : Bytes} {position : Nat} {cuts : List Nat}
    (hascend : (position :: cuts).Pairwise (· < ·)) (hbound : ∀ cut ∈ cuts, cut ≤ data.length) :
    position + ((closedFrom data position cuts).map (·.2.length)).sum = lastCut position cuts := by
  induction cuts generalizing position with
  | nil => rfl
  | cons cut rest ih =>
    obtain ⟨hfirst, hrest⟩ := List.pairwise_cons.mp hascend
    have hlt : position < cut := hfirst cut List.mem_cons_self
    have hle : cut ≤ data.length := hbound cut List.mem_cons_self
    have hsum := ih hrest fun c hc => hbound c (List.mem_cons_of_mem cut hc)
    rw [closedFrom, List.map_cons, List.sum_cons, lastCut_cons, ← hsum, List.length_take,
      List.length_drop]
    omega

/-- A part of a stream completes the pieces that the cuts in it end; the last cut
    is then the last one of all that has been seen. -/
theorem Chunker.Tracks.push_part {s : Chunker} {p : Params} {seen : Bytes}
    (h : s.Tracks p seen (lastCut 0 (cuts p seen))) (part : Bytes) :
    (s.push part).1 = (newPieces p seen part).map (ofPiece p) ∧
      (s.push part).2.Tracks p (seen ++ part) (lastCut 0 (cuts p (seen ++ part))) := by
  rw [cuts_append, lastCut_append]
  exact h.push part

/-! ### Chunks that end at a cut -/

/-- Whether a chunk of a byte string ends where a cut is. -/
def endsAtCut (p : Params) (data : Bytes) (c : Chunk) : Bool := decide (c.last ∈ cuts p data)

theorem last_ofPiece (p : Params) (piece : Nat × Bytes) :
    (Chunker.ofPiece p piece).last = pieceEnd piece := rfl

/-- All chunks but one that only the end of the byte string closes end at a cut. -/
theorem filter_endsAtCut (p : Params) (data : Bytes) :
    (chunkBytes p data).filter (endsAtCut p data) = (closedPieces p data).map (Chunker.ofPiece p) := by
  have hclosed : (closedPieces p data).filter (endsAtCut p data ∘ Chunker.ofPiece p) =
      closedPieces p data := by
    rw [List.filter_eq_self]
    intro piece hpiece
    rw [Function.comp_apply, endsAtCut, last_ofPiece, decide_eq_true_iff, ← map_pieceEnd_closedPieces]
    exact List.mem_map_of_mem hpiece
  have hopen : (openPiece data (lastCut 0 (cuts p data))).filter
      (endsAtCut p data ∘ Chunker.ofPiece p) = [] := by
    rw [List.filter_eq_nil_iff]
    intro piece hpiece hends
    rw [Function.comp_apply, endsAtCut, last_ofPiece, decide_eq_true_iff] at hends
    rw [openPiece] at hpiece
    split at hpiece
    · rw [List.mem_singleton] at hpiece
      subst hpiece
      have hle := le_lastCut (cuts_ascend p data).1 _ (List.mem_cons_of_mem 0 hends)
      rw [pieceEnd, List.length_drop] at hle
      omega
    · cases hpiece
  rw [chunkBytes_eq, pieces_eq, List.filter_map, List.filter_append, hclosed, hopen, List.append_nil]

def endsWithin (first last : Nat) (c : Chunk) : Bool := first < c.last && c.last ≤ last

theorem endsWithin_ofPiece_iff {p : Params} {first last : Nat} {piece : Nat × Bytes} :
    endsWithin first last (Chunker.ofPiece p piece) = true ↔
      first < pieceEnd piece ∧ pieceEnd piece ≤ last := by
  rw [endsWithin, last_ofPiece, Bool.and_eq_true, decide_eq_true_iff, decide_eq_true_iff]

/-- The chunks that a part of a byte string completes are those that end at a cut in it. -/
theorem filter_endsWithin (p : Params) (seen part more : Bytes) :
    (chunkBytes p (seen ++ part ++ more)).filter (fun c => endsAtCut p (seen ++ part ++ more) c &&
        endsWithin seen.length (seen ++ part).length c) =
      (newPieces p seen part).map (Chunker.ofPiece p) := by
  have hend {pieces : List (Nat × Bytes)} {cuts : List Nat} (hpieces : pieces.map pieceEnd = cuts)
      {piece : Nat × Bytes} (hpiece : piece ∈ pieces) : pieceEnd piece ∈ cuts := by
    rw [← hpieces]
    exact List.mem_map_of_mem hpiece
  have hbefore : (closedPieces p seen).filter
      (endsWithin seen.length (seen ++ part).length ∘ Chunker.ofPiece p) = [] := by
    rw [List.filter_eq_nil_iff]
    intro piece hpiece
    have hle := (cuts_ascend p seen).2 _ (hend (map_pieceEnd_closedPieces p seen) hpiece)
    rw [Function.comp_apply, endsWithin_ofPiece_iff]
    omega
  have hwithin : (newPieces p seen part).filter
      (endsWithin seen.length (seen ++ part).length ∘ Chunker.ofPiece p) = newPieces p seen part := by
    rw [List.filter_eq_self]
    intro piece hpiece
    have hbounds := mem_newCuts_bounds (hend (map_pieceEnd_newPieces p seen part) hpiece)
    rw [Function.comp_apply, endsWithin_ofPiece_iff, List.length_append]
    exact hbounds
  have hbehind : (newPieces p (seen ++ part) more).filter
      (endsWithin seen.length (seen ++ part).length ∘ Chunker.ofPiece p) = [] := by
    rw [List.filter_eq_nil_iff]
    intro piece hpiece
    have hbounds := mem_newCuts_bounds (hend (map_pieceEnd_newPieces p (seen ++ part) more) hpiece)
    rw [Function.comp_apply, endsWithin_ofPiece_iff]
    omega
  simp only [Bool.and_comm (endsAtCut p _ _)]
  rw [← List.filter_filter, filter_endsAtCut, closedPieces_append, closedPieces_append, List.filter_map,
    List.filter_append, List.filter_append, hbefore, hwithin, hbehind, List.nil_append, List.append_nil]

end DedupArchive
