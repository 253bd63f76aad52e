/-
  DedupArchive/Proofs/Chunking/Sizes.lean
  =======================================
  **How long chunks are.**

  Parameters that are accepted do not ask for a shortest size above the longest.
  So a scan never gets past the longest size without a cut, and no cut falls below
  the shortest: from one cut to the next it is as far as the parameters allow, and
  from the last cut to the end it is less than the longest size.  That holds of
  the cuts of a byte string, and so of the chunks, in whatever parts the bytes
  come and whether they are pushed or read.
-/
import DedupArchive.Proofs.Reading.Iteration
import Mathlib.Data.List.Chain

namespace DedupArchive

namespace Params

/-- Whether a stream may end with a chunk: it is not empty and not above the longest size. -/
def Admits (p : Params) (c : Chunk) : Prop := 0 < c.length ∧ ∀ max ∈ p.maxSize, c.length ≤ max.toNat

def Spaces (p : Params) (cut next : Nat) : Prop :=
  cut < next ∧ p.minSize.toNat ≤ next - cut ∧ ∀ max ∈ p.maxSize, next - cut ≤ max.toNat

/-- A byte string that leaves no room for two chunks: it does not fill the window
    and is not above the longest size. -/
structure IsShort (p : Params) (data : Bytes) : Prop where
  ne_nil : data ≠ []
  length_lt : data.length < p.window.toNat
  length_le : ∀ max ∈ p.maxSize, data.length ≤ max.toNat

theorem bounds_of_validate {p : Params} (h : p.validate = .ok ()) :
    ∀ max ∈ p.maxSize, 0 < max.toNat ∧ p.minSize.toNat ≤ max.toNat := by
  intro max hmax
  rw [Option.mem_def] at hmax
  rw [validate, hmax] at h
  split at h
  · cases h
  · split at h
    · cases h
    · dsimp only at h
      split at h
      · cases h
      · rename_i hzero
        split at h
        · cases h
        · rename_i hbelow
          constructor
          · rw [← UInt64.toNat_inj] at hzero
            exact Nat.pos_of_ne_zero hzero
          · exact UInt64.le_iff_toNat_le.mp (UInt64.not_lt.mp hbelow)

end Params

variable {p : Params} {data : Bytes}

/-! ### From cut to cut -/

/-- **A scan.**  It finds cuts at distances that are allowed, and if it starts
    below the longest size, it ends below it. -/
theorem cutsFrom_spaced (hbounds : ∀ max ∈ p.maxSize, 0 < max.toNat ∧ p.minSize.toNat ≤ max.toNat)
    {last position : Nat} (count : Nat) (hle : last ≤ position)
    (hopen : ∀ max ∈ p.maxSize, position - last < max.toNat) :
    (last :: cutsFrom p data last position count).IsChain p.Spaces ∧ ∀ max ∈ p.maxSize,
      position + count - lastCut last (cutsFrom p data last position count) < max.toNat := by
  induction count generalizing last position with
  | zero => exact ⟨List.isChain_singleton last, hopen⟩
  | succ count ih =>
    have hend : position + (count + 1) = position + 1 + count := by omega
    rw [cutsFrom, hend]
    cases hcut : cutsAt p data last (position + 1) with
    | true =>
      obtain ⟨hchain, hbelow⟩ := ih (Nat.le_refl (position + 1)) fun max hmax => by
        have := (hbounds max hmax).1
        omega
      rw [if_pos rfl, lastCut_cons]
      refine ⟨List.isChain_cons_cons.mpr ⟨⟨by omega, ?_, ?_⟩, hchain⟩, hbelow⟩
      · rw [cutsAt, Bool.and_eq_true, decide_eq_true_iff] at hcut
        exact hcut.1
      · intro max hmax
        have := hopen max hmax
        omega
    | false =>
      rw [if_neg Bool.false_ne_true]
      apply ih (Nat.le_succ_of_le hle)
      -- at the longest size a cut is forced, and the shortest does not stand in its way
      intro max hmax
      by_contra hfar
      rw [Nat.not_lt] at hfar
      have hreached : position + 1 - last = max.toNat := by
        have := hopen max hmax
        omega
      have hmin := (hbounds max hmax).2
      rw [Option.mem_def] at hmax
      simp [cutsAt, hmax, hreached, hmin] at hcut

theorem spaces_of_mem_closedFrom {position : Nat} {cuts : List Nat}
    (hchain : (position :: cuts).IsChain p.Spaces) (hbound : ∀ cut ∈ cuts, cut ≤ data.length)
    {piece : Nat × Bytes} (hpiece : piece ∈ closedFrom data position cuts) :
    p.Spaces piece.1 (pieceEnd piece) := by
  induction cuts generalizing position with
  | nil => cases hpiece
  | cons cut rest ih =>
    obtain ⟨hspaces, hrest⟩ := List.isChain_cons_cons.mp hchain
    rcases List.mem_cons.mp hpiece with rfl | hpiece
    · have hlt : position < cut := hspaces.1
      have hle : cut ≤ data.length := hbound cut List.mem_cons_self
      have hend : pieceEnd (position, (data.drop position).take (cut - position)) = cut := by
        rw [pieceEnd, List.length_take, List.length_drop]
        omega
      rw [hend]
      exact hspaces
    · exact ih hrest (fun c hc => hbound c (List.mem_cons_of_mem cut hc)) hpiece

/-! ### Pieces -/

section Valid

variable (hvalid : p.validate = .ok ())

include hvalid

theorem cuts_spaced (data : Bytes) : (0 :: cuts p data).IsChain p.Spaces ∧
    ∀ max ∈ p.maxSize, data.length - lastCut 0 (cuts p data) < max.toNat := by
  have hbounds := p.bounds_of_validate hvalid
  have h := @cutsFrom_spaced p data hbounds 0 0 data.length (Nat.le_refl 0) fun max hmax =>
    (hbounds max hmax).1
  rwa [Nat.zero_add] at h

theorem admits_of_mem_closedPieces {piece : Nat × Bytes} (hpiece : piece ∈ closedPieces p data) :
    p.Admits (Chunker.ofPiece p piece) ∧ p.minSize.toNat ≤ (Chunker.ofPiece p piece).length := by
  obtain ⟨hlt, hmin, hmax⟩ :=
    spaces_of_mem_closedFrom (cuts_spaced hvalid data).1 (cuts_ascend p data).2 hpiece
  have hlength : pieceEnd piece - piece.1 = (Chunker.ofPiece p piece).length :=
    Nat.add_sub_cancel_left _ _
  rw [hlength] at hmin hmax
  exact ⟨⟨by omega, hmax⟩, hmin⟩

theorem admits_of_mem_openPiece {piece : Nat × Bytes}
    (hpiece : piece ∈ openPiece data (lastCut 0 (cuts p data))) : p.Admits (Chunker.ofPiece p piece) := by
  rw [openPiece] at hpiece
  split at hpiece
  · rename_i hlt
    cases List.mem_singleton.mp hpiece
    have hlength : (Chunker.ofPiece p (lastCut 0 (cuts p data),
        data.drop (lastCut 0 (cuts p data)))).length = data.length - lastCut 0 (cuts p data) :=
      List.length_drop
    refine ⟨by omega, ?_⟩
    intro max hmax
    rw [hlength]
    exact Nat.le_of_lt ((cuts_spaced hvalid data).2 max hmax)
  · cases hpiece

end Valid

/-! ### Chunks of a byte string -/

/-- Whether it is the end of the byte string that closes a chunk, and not a cut. -/
def ClosedByEnd (p : Params) (data : Bytes) (c : Chunk) : Prop :=
  c.last = data.length ∧ endsAtCut p data c = false

theorem closedByEnd_of_mem_openPiece {piece : Nat × Bytes}
    (hpiece : piece ∈ openPiece data (lastCut 0 (cuts p data))) :
    ClosedByEnd p data (Chunker.ofPiece p piece) := by
  rw [openPiece] at hpiece
  split at hpiece
  · rename_i hlt
    cases List.mem_singleton.mp hpiece
    have hend : pieceEnd (lastCut 0 (cuts p data), data.drop (lastCut 0 (cuts p data))) =
        data.length := by
      rw [pieceEnd, List.length_drop]
      omega
    refine ⟨hend, ?_⟩
    rw [endsAtCut, last_ofPiece, hend, decide_eq_false_iff_not]
    intro hcut
    exact Nat.not_le_of_lt hlt
      (le_lastCut (cuts_ascend p data).1 _ (List.mem_cons_of_mem 0 hcut))
  · cases hpiece

theorem sizes_of_mem_chunkBytes (hvalid : p.validate = .ok ()) {c : Chunk} (hc : c ∈ chunkBytes p data) :
    p.Admits c ∧ (p.minSize.toNat ≤ c.length ∨ ClosedByEnd p data c) := by
  rw [chunkBytes_eq, pieces_eq, List.map_append] at hc
  rcases List.mem_append.mp hc with hc | hc
  · obtain ⟨piece, hpiece, rfl⟩ := List.mem_map.mp hc
    obtain ⟨hadmits, hmin⟩ := admits_of_mem_closedPieces hvalid hpiece
    exact ⟨hadmits, Or.inl hmin⟩
  · obtain ⟨piece, hpiece, rfl⟩ := List.mem_map.mp hc
    exact ⟨admits_of_mem_openPiece hvalid hpiece, Or.inr (closedByEnd_of_mem_openPiece hpiece)⟩

/-! ### Byte strings that leave no room for two chunks -/

theorem exists_cutsAt_of_mem_cutsFrom {last position count cut : Nat}
    (hcut : cut ∈ cutsFrom p data last position count) : ∃ before, cutsAt p data before cut = true := by
  induction count generalizing last position with
  | zero => cases hcut
  | succ count ih =>
    rw [cutsFrom] at hcut
    split at hcut
    · rename_i hhere
      rcases List.mem_cons.mp hcut with rfl | hcut
      · exact ⟨last, hhere⟩
      · exact ih hcut
    · exact ih hcut

namespace Params.IsShort

variable (h : p.IsShort data)

include h

/-- It can be cut at its end only. -/
theorem eq_length_of_mem_cuts {cut : Nat} (hcut : cut ∈ cuts p data) : cut = data.length := by
  have hle : cut ≤ data.length := (cuts_ascend p data).2 cut hcut
  obtain ⟨before, hrule⟩ := exists_cutsAt_of_mem_cutsFrom hcut
  have hnarrow : ¬ p.width ≤ cut := by
    have := h.length_lt
    rw [width]
    omega
  rw [cutsAt, matchesAt, decide_eq_false hnarrow, Bool.false_and, Bool.or_false, Bool.and_eq_true,
    Option.any_eq_true] at hrule
  obtain ⟨-, max, hmax, hforced⟩ := hrule
  rw [decide_eq_true_iff] at hforced
  have := h.length_le max hmax
  omega

theorem pieces_eq : pieces p data = [(0, data)] := by
  have hascend := (List.pairwise_cons.mp (cuts_ascend p data).1).2
  have honly : ∀ cut ∈ cuts p data, cut = data.length := fun cut => h.eq_length_of_mem_cuts
  have hpos : 0 < data.length := List.length_pos_iff.mpr h.ne_nil
  rw [pieces]
  rcases hcuts : cuts p data with _ | ⟨cut, _ | ⟨next, rest⟩⟩
  · rw [piecesFrom, if_pos hpos, List.drop_zero]
  · rw [hcuts] at honly
    obtain rfl := honly cut List.mem_cons_self
    simp [piecesFrom]
  · -- two cuts would be at two places
    rw [hcuts] at honly hascend
    have hlt : cut < next := (List.pairwise_cons.mp hascend).1 next List.mem_cons_self
    have hfirst := honly cut List.mem_cons_self
    have hsecond := honly next (List.mem_cons_of_mem cut List.mem_cons_self)
    omega

theorem chunkBytes_eq : chunkBytes p data = [Chunker.chunkOf p data 0] := by
  rw [DedupArchive.chunkBytes_eq, h.pieces_eq]
  rfl

end Params.IsShort

/-! ### Chunks of a session -/

namespace Chunker

/-- Whether all that an event gave is as long as the parameters allow; what a
    part completes a cut has ended. -/
def Event.IsSized (p : Params) : Event → Prop
  | .pushed _ chunks => ∀ c ∈ chunks, p.Admits c ∧ p.minSize.toNat ≤ c.length
  | .finished last => ∀ c ∈ last, p.Admits c
  | .reset => True

variable {s : Chunker} {parts : Parts} (hvalid : p.validate = .ok ())

include hvalid

/-- **One call.** -/
theorem Reached.isSized_perform (h : s.Reached p parts) (call : Call) : (s.perform call).1.IsSized p := by
  cases call with
  | push part =>
    intro c hc
    rw [(h.tracks.push_part part).1] at hc
    obtain ⟨piece, hpiece, rfl⟩ := List.mem_map.mp hc
    have hclosed : piece ∈ closedPieces p (parts.bytes ++ part) := by
      rw [closedPieces_append]
      exact List.mem_append_right _ hpiece
    exact admits_of_mem_closedPieces hvalid hclosed
  | finish =>
    intro c hc
    replace hc := Option.mem_toList.mpr hc
    rw [h.tracks.finish] at hc
    obtain ⟨piece, hpiece, rfl⟩ := List.mem_map.mp hc
    exact admits_of_mem_openPiece hvalid hpiece
  | reset => trivial

/-- **Any number of calls.** -/
theorem Reached.isSized_run (h : s.Reached p parts) (calls : List Call) :
    ∀ event ∈ (s.run calls).1, event.IsSized p := by
  induction calls generalizing s parts with
  | nil => exact fun event hevent => absurd hevent List.not_mem_nil
  | cons call rest ih =>
    intro event hevent
    rcases List.mem_cons.mp hevent with rfl | hevent
    · exact h.isSized_perform hvalid call
    · exact ih (h.perform call) event hevent

end Chunker

/-! ### Chunks of a reader -/

/-- What is to be given are chunks of what is delivered, and where that ends by a
    failure, such as a cut ends. -/
theorem ChunkReader.mem_of_expected {d : Bytes × Option IoError} {c : Chunk}
    (h : .ok c ∈ expected p d) :
    c ∈ chunkBytes p d.1 ∧ (d.2 ≠ none → endsAtCut p d.1 c = true) := by
  obtain ⟨data, failure⟩ := d
  cases failure with
  | none =>
    obtain ⟨c', hc', heq⟩ := List.mem_map.mp h
    cases heq
    exact ⟨hc', fun hfailed => absurd rfl hfailed⟩
  | some e =>
    rcases List.mem_append.mp h with h | h
    · obtain ⟨c', hc', heq⟩ := List.mem_map.mp h
      cases heq
      obtain ⟨hmem, hcut⟩ := List.mem_filter.mp hc'
      exact ⟨hmem, fun _ => hcut⟩
    · cases List.mem_singleton.mp h

theorem ChunkReader.expected_of_ended {d : Bytes × Option IoError} (hended : d.2 = none) :
    expected p d = (chunkBytes p d.1).map .ok := by
  obtain ⟨data, failure⟩ := d
  cases hended
  rfl

/-- **How long chunks are.**  With parameters that are accepted, no chunk is empty
    or above the longest size, and none is below the shortest but the one that the
    end of the stream closes.  A stream that does not fill the window, and is not
    above the longest size, is one chunk.  So it is for a byte string, for parts
    that are pushed, whatever streams went before, and for what a reader gives. -/
theorem chunks_within_bounds (hvalid : p.validate = .ok ()) :
    (∀ data, (∀ c ∈ chunkBytes p data, p.Admits c ∧
        (p.minSize.toNat ≤ c.length ∨ ClosedByEnd p data c)) ∧
      (p.IsShort data → chunkBytes p data = [Chunker.chunkOf p data 0])) ∧
    (∀ calls, (∀ event ∈ ((Chunker.start p).run calls).1, event.IsSized p) ∧
      (p.IsShort ((Chunker.start p).openParts calls).bytes →
        ((Chunker.start p).openParts calls).chunks ++ ((Chunker.start p).run calls).2.finish.1.toList =
          [Chunker.chunkOf p ((Chunker.start p).openParts calls).bytes 0])) ∧
    ∀ script : Script,
      (∀ i c, ((ChunkReader.start p script).after i).next.1 = some (.ok c) → p.Admits c ∧
        (p.minSize.toNat ≤ c.length ∨
          script.delivered.2 = none ∧ ClosedByEnd p script.delivered.1 c)) ∧
      (script.delivered.2 = none → p.IsShort script.delivered.1 → ∀ i,
        ((ChunkReader.start p script).after i).next.1 =
          [.ok (Chunker.chunkOf p script.delivered.1 0)][i]?) := by
  refine ⟨?_, ?_, ?_⟩
  · intro data
    exact ⟨fun c hc => sizes_of_mem_chunkBytes hvalid hc, Params.IsShort.chunkBytes_eq⟩
  · intro calls
    refine ⟨(Chunker.tracks_start p).reached.isSized_run hvalid calls, ?_⟩
    intro hshort
    rw [(Chunker.reached_run p calls).matchesStream.whole]
    exact hshort.chunkBytes_eq
  · intro script
    have hnext (i : Nat) : ((ChunkReader.start p script).after i).next.1 =
        (ChunkReader.expected p script.delivered)[i]? := (ChunkReader.yields_of_steady p script).given i
    constructor
    · intro i c hgiven
      rw [hnext] at hgiven
      obtain ⟨hmem, hcut⟩ := ChunkReader.mem_of_expected (List.mem_of_getElem? hgiven)
      obtain ⟨hadmits, hmin | hend⟩ := sizes_of_mem_chunkBytes hvalid hmem
      · exact ⟨hadmits, Or.inl hmin⟩
      · refine ⟨hadmits, Or.inr ⟨?_, hend⟩⟩
        by_contra hfailed
        exact Bool.false_ne_true (hend.2.symm.trans (hcut hfailed))
    · intro hended hshort i
      rw [hnext, ChunkReader.expected_of_ended hended, hshort.chunkBytes_eq]
      rfl

def twoOrThree : Params := ⟨4, 1, 1, 2, some 3, false⟩

/-- The shortest size is not kept at the end of a stream. -/
theorem chunks_within_bounds_twoOrThree : twoOrThree.validate = .ok () ∧
    (∀ c ∈ chunkBytes twoOrThree [1, 2, 3, 4, 5, 6, 7], 0 < c.length ∧ c.length ≤ 3) ∧
    chunkBytes twoOrThree [1] = [⟨[1], some 0, none⟩] := by
  obtain ⟨hbytes, -, -⟩ := chunks_within_bounds (p := twoOrThree) rfl
  refine ⟨rfl, ?_, ?_⟩
  · intro c hc
    obtain ⟨hpos, hmax⟩ := ((hbytes _).1 c hc).1
    exact ⟨hpos, hmax 3 rfl⟩
  · exact (hbytes [1]).2 ⟨by decide, by decide, fun max hmax => by cases hmax; decide⟩

end DedupArchive
