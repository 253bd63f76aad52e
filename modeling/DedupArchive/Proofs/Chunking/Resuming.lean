/-
  DedupArchive/Proofs/Chunking/Resuming.lean
  ==========================================
  **Cuts forget what is far behind them.**

  The window before a position is all of the past that the cutting rule looks at,
  apart from the distance to the last cut.  So a byte string is cut from a cut on
  as if nothing stood before it, as soon as the window has left what differs.  An
  edit therefore disturbs the chunks around it only: behind it the chunks are the
  old ones again from the first cut that both byte strings have.  Without bounds on
  the size of a chunk every cut a window behind the edit is such a cut.
-/
import DedupArchive.Proofs.Chunking.Prefix
import Mathlib.Data.List.Forall2
import Mathlib.Data.List.Infix

namespace DedupArchive

/-! ### Bytes in front -/

section Front

variable (p : Params) (front : Bytes) {back : Bytes}

/-- A position whose window lies behind the bytes in front matches as it does without them. -/
theorem matchesAt_front {i : Nat} (hwidth : p.width ≤ i) :
    matchesAt p (front ++ back) (front.length + i) = matchesAt p back i := by
  have hplace : front.length + i - p.width = front.length + (i - p.width) := by omega
  have hfull : p.width ≤ front.length + i := by omega
  simp [matchesAt, windowBefore, hplace, hwidth, hfull]

theorem cutsAt_front (last : Nat) {i : Nat} (hwidth : p.width ≤ i) :
    cutsAt p (front ++ back) (front.length + last) (front.length + i) = cutsAt p back last i := by
  have hdistance : front.length + i - (front.length + last) = i - last := by omega
  simp [cutsAt, matchesAt_front p front hwidth, hdistance]

/-- From a cut on, the cuts are those of the bytes behind, moved by the bytes in front. -/
theorem cutsFrom_front (last : Nat) {position : Nat} (count : Nat) (hwidth : p.width ≤ position) :
    cutsFrom p (front ++ back) (front.length + last) (front.length + position) count =
      (cutsFrom p back last position count).map (front.length + ·) := by
  induction count generalizing last position with
  | zero => rfl
  | succ count ih =>
    have hnext : p.width ≤ position + 1 := by omega
    have hrule : cutsAt p (front ++ back) (front.length + last) (front.length + position + 1) =
        cutsAt p back last (position + 1) := cutsAt_front p front last hnext
    rw [cutsFrom, cutsFrom, hrule]
    split
    · rw [List.map_cons, ← ih (position + 1) hnext]
      rfl
    · exact ih last hnext

theorem piecesFrom_front (position : Nat) (cuts : List Nat) :
    piecesFrom (front ++ back) (front.length + position) (cuts.map (front.length + ·)) =
      (piecesFrom back position cuts).map fun piece => (front.length + piece.1, piece.2) := by
  induction cuts generalizing position with
  | nil =>
    by_cases hlt : position < back.length
    · simp [piecesFrom, hlt]
    · simp [piecesFrom, hlt]
  | cons cut rest ih =>
    have hlength : front.length + cut - (front.length + position) = cut - position := by omega
    simp [piecesFrom, ih, hlength]

end Front

/-! ### From a cut on -/

section Cut

variable {p : Params} {data : Bytes} {cut : Nat}

theorem lastCut_mem (position : Nat) (cuts : List Nat) : lastCut position cuts ∈ position :: cuts := by
  induction cuts generalizing position with
  | nil => simp [lastCut]
  | cons cut rest ih =>
    rw [lastCut_cons]
    exact List.mem_cons_of_mem position (ih cut)

/-- The scan starts anew at a cut. -/
theorem cuts_of_mem (hcut : cut ∈ cuts p data) : ∃ before,
    cuts p data = before ++ cutsFrom p data cut cut (data.length - cut) ∧
      lastCut 0 before = cut ∧ (0 :: before).Pairwise (· < ·) ∧ ∀ q ∈ before, q ≤ cut := by
  have hle : cut ≤ data.length := (cuts_ascend p data).2 cut hcut
  obtain ⟨hascend, hbound⟩ := cutsFrom_pairwise p data cut (Nat.le_refl 0)
  simp only [Nat.zero_add] at hbound
  have hsplit := cutsFrom_add p data 0 0 cut (data.length - cut)
  rw [Nat.zero_add, Nat.add_sub_cancel' hle] at hsplit
  -- what the scan finds from here on lies behind, so the cut is among what it found before
  have hmem : cut ∈ cutsFrom p data 0 0 cut := by
    rw [cuts, hsplit] at hcut
    rcases List.mem_append.mp hcut with hbefore | hbehind
    · exact hbefore
    · exact absurd (lt_of_mem_cutsFrom hbehind) (Nat.lt_irrefl cut)
  have hlast : lastCut 0 (cutsFrom p data 0 0 cut) = cut := by
    apply Nat.le_antisymm
    · rcases List.mem_cons.mp (lastCut_mem 0 (cutsFrom p data 0 0 cut)) with hzero | hin
      · rw [hzero]
        exact Nat.zero_le cut
      · exact hbound _ hin
    · exact le_lastCut hascend cut (List.mem_cons_of_mem 0 hmem)
  rw [hlast] at hsplit
  exact ⟨_, hsplit, hlast, hascend, hbound⟩

theorem first_lt_of_mem_closedFrom {position limit : Nat} {cuts : List Nat}
    (hascend : (position :: cuts).Pairwise (· < ·)) (hlimit : ∀ q ∈ cuts, q ≤ limit)
    {piece : Nat × Bytes} (hpiece : piece ∈ closedFrom data position cuts) : piece.1 < limit := by
  induction cuts generalizing position with
  | nil => cases hpiece
  | cons next rest ih =>
    obtain ⟨hfirst, hrest⟩ := List.pairwise_cons.mp hascend
    rcases List.mem_cons.mp hpiece with rfl | hpiece
    · exact Nat.lt_of_lt_of_le (hfirst next (by simp)) (hlimit next (by simp))
    · exact ih hrest (fun q hq => hlimit q (by simp [hq])) hpiece

/-- A piece starts at the beginning or where a cut is. -/
theorem first_mem_of_mem_piecesFrom {position : Nat} {cuts : List Nat} {piece : Nat × Bytes}
    (hpiece : piece ∈ piecesFrom data position cuts) : piece.1 ∈ position :: cuts := by
  induction cuts generalizing position with
  | nil =>
    rw [piecesFrom] at hpiece
    split at hpiece
    · rw [List.mem_singleton.mp hpiece]
      exact List.mem_singleton_self position
    · cases hpiece
  | cons next rest ih =>
    rcases List.mem_cons.mp hpiece with rfl | hpiece
    · exact List.mem_cons_self
    · exact List.mem_cons_of_mem position (ih hpiece)

theorem le_first_of_mem_piecesFrom {position : Nat} {cuts : List Nat}
    (hascend : (position :: cuts).Pairwise (· < ·)) {piece : Nat × Bytes}
    (hpiece : piece ∈ piecesFrom data position cuts) : position ≤ piece.1 := by
  rcases List.mem_cons.mp (first_mem_of_mem_piecesFrom hpiece) with hfirst | hcut
  · exact Nat.le_of_eq hfirst.symm
  · exact Nat.le_of_lt (List.rel_of_pairwise_cons hascend hcut)

theorem piecesFrom_append (position : Nat) (first second : List Nat) :
    piecesFrom data position (first ++ second) =
      closedFrom data position first ++ piecesFrom data (lastCut position first) second := by
  rw [piecesFrom_eq, piecesFrom_eq, closedFrom_concat, lastCut_append, List.append_assoc]

/-- The chunks from a cut on are the pieces that a scan finds which starts there. -/
theorem filter_first_of_mem_cuts (hcut : cut ∈ cuts p data) :
    (chunkBytes p data).filter (cut ≤ ·.first) =
      (piecesFrom data cut (cutsFrom p data cut cut (data.length - cut))).map (Chunker.ofPiece p) := by
  obtain ⟨before, hcuts, hlast, hascend, hbound⟩ := cuts_of_mem hcut
  obtain ⟨hbehind, -⟩ := cutsFrom_pairwise p data (data.length - cut) (Nat.le_refl cut)
  have hnone : (closedFrom data 0 before).filter
      ((fun c : Chunk => decide (cut ≤ c.first)) ∘ Chunker.ofPiece p) = [] := by
    rw [List.filter_eq_nil_iff]
    intro piece hpiece
    have hlt : (Chunker.ofPiece p piece).first < cut :=
      first_lt_of_mem_closedFrom hascend hbound hpiece
    simpa using hlt
  have hall : (piecesFrom data cut (cutsFrom p data cut cut (data.length - cut))).filter
      ((fun c : Chunk => decide (cut ≤ c.first)) ∘ Chunker.ofPiece p) =
        piecesFrom data cut (cutsFrom p data cut cut (data.length - cut)) := by
    rw [List.filter_eq_self]
    intro piece hpiece
    have hle : cut ≤ (Chunker.ofPiece p piece).first := le_first_of_mem_piecesFrom hbehind hpiece
    simpa using hle
  rw [chunkBytes_eq, pieces, hcuts, piecesFrom_append, hlast, List.filter_map, List.filter_append,
    hnone, hall, List.nil_append]

end Cut

/-! ### Chunks of the same bytes at shifted places -/

/-- The chunks have the same bytes, and the one stands as far behind the first
    position as the other behind the second. -/
def Chunk.Shifted (first second : Nat) (x y : Chunk) : Prop :=
  ∃ n, x.offset = some (first + n) ∧ y.offset = some (second + n) ∧ x.data = y.data ∧ x.hash = y.hash

theorem shifted_ofPiece (p : Params) (first second : Nat) (piece : Nat × Bytes) :
    Chunk.Shifted first second (Chunker.ofPiece p (first + piece.1, piece.2))
      (Chunker.ofPiece p (second + piece.1, piece.2)) :=
  ⟨piece.1, rfl, rfl, rfl, rfl⟩

/-- What follows a cut is cut without regard to the bytes in front, if the window
    lies behind them. -/
theorem filter_first_of_front {p : Params} {front back : Bytes} {i : Nat} (hwidth : p.width ≤ i)
    (hcut : front.length + i ∈ cuts p (front ++ back)) :
    (chunkBytes p (front ++ back)).filter (front.length + i ≤ ·.first) =
      (piecesFrom back i (cutsFrom p back i i (back.length - i))).map
        fun piece => Chunker.ofPiece p (front.length + piece.1, piece.2) := by
  have hcount : (front ++ back).length - (front.length + i) = back.length - i := by
    simp only [List.length_append]
    omega
  rw [filter_first_of_mem_cuts hcut, hcount, cutsFrom_front p front i _ hwidth, piecesFrom_front,
    List.map_map]
  rfl

/-! ### Resynchronising -/

/-- A chunk ends at the position, and not only because the byte string does. -/
def EndsByCut (p : Params) (data : Bytes) (position : Nat) : Prop :=
  ∃ c ∈ ((Chunker.start p).push data).1, c.last = position

theorem endsByCut_iff {p : Params} {data : Bytes} {position : Nat} :
    EndsByCut p data position ↔ position ∈ cuts p data := by
  rw [EndsByCut, (push_start p data).1, ← map_pieceEnd_closedPieces, List.mem_map]
  constructor
  · rintro ⟨c, hc, hlast⟩
    obtain ⟨piece, hpiece, rfl⟩ := List.mem_map.mp hc
    exact ⟨piece, hpiece, hlast⟩
  · rintro ⟨piece, hpiece, hend⟩
    exact ⟨_, List.mem_map_of_mem hpiece, hend⟩

/-- **Chunking resynchronises at the first common cut.**  Two byte strings with a
    common end that are both cut at one place of it, a window or more behind its
    beginning, have the same chunks from there on, whatever bounds there are on
    the size of a chunk. -/
theorem chunks_resume (p : Params) (a b c : Bytes) (i : Nat) (hwidth : p.width ≤ i)
    (ha : EndsByCut p (a ++ c) (a.length + i)) (hb : EndsByCut p (b ++ c) (b.length + i)) :
    List.Forall₂ (Chunk.Shifted a.length b.length)
      ((chunkBytes p (a ++ c)).filter (a.length + i ≤ ·.first))
      ((chunkBytes p (b ++ c)).filter (b.length + i ≤ ·.first)) := by
  rw [filter_first_of_front hwidth (endsByCut_iff.mp ha),
    filter_first_of_front hwidth (endsByCut_iff.mp hb), List.forall₂_map_left_iff,
    List.forall₂_map_right_iff, List.forall₂_same]
  intro piece _
  exact shifted_ofPiece p a.length b.length piece

def evenCuts : Params := ⟨1, 1, 1, 2, some 4, false⟩

/-- The bytes in front put a forced cut at different places, and both byte strings
    are cut behind the first even byte of what they have in common. -/
theorem chunks_resume_evenCuts : evenCuts.width ≤ 3 ∧
    EndsByCut evenCuts ([1] ++ [1, 1, 2, 1, 1, 1, 6, 3]) (1 + 3) ∧
    EndsByCut evenCuts ([1, 1, 1] ++ [1, 1, 2, 1, 1, 1, 6, 3]) (3 + 3) ∧
    ((chunkBytes evenCuts ([1] ++ [1, 1, 2, 1, 1, 1, 6, 3])).filter (1 + 3 ≤ ·.first)).map (·.data) =
      [[1, 1, 1, 6], [3]] ∧
    List.Forall₂ (Chunk.Shifted 1 3)
      ((chunkBytes evenCuts ([1] ++ [1, 1, 2, 1, 1, 1, 6, 3])).filter (1 + 3 ≤ ·.first))
      ((chunkBytes evenCuts ([1, 1, 1] ++ [1, 1, 2, 1, 1, 1, 6, 3])).filter (3 + 3 ≤ ·.first)) := by
  have ha : EndsByCut evenCuts ([1] ++ [1, 1, 2, 1, 1, 1, 6, 3]) (1 + 3) :=
    endsByCut_iff.mpr (by decide)
  have hb : EndsByCut evenCuts ([1, 1, 1] ++ [1, 1, 2, 1, 1, 1, 6, 3]) (3 + 3) :=
    endsByCut_iff.mpr (by decide)
  have hwidth : evenCuts.width ≤ 3 := by decide
  exact ⟨hwidth, ha, hb, by decide, chunks_resume evenCuts [1] [1, 1, 1] _ 3 hwidth ha hb⟩

/-! ### Edits -/

section Unbounded

variable {p : Params} (hmin : p.minSize ≤ 1) (hmax : p.maxSize = none)

include hmin hmax

/-- Without bounds on the size of a chunk a position is cut wherever its window matches. -/
theorem cutsAt_of_unbounded (data : Bytes) {last position : Nat} (hlt : last < position) :
    cutsAt p data last position = matchesAt p data position := by
  have hshort : p.minSize.toNat ≤ position - last := by
    have hone : p.minSize.toNat ≤ 1 := hmin
    omega
  simp [cutsAt, hmax, hshort]

theorem mem_cutsFrom_iff (data : Bytes) {last position cut : Nat} (count : Nat)
    (hle : last ≤ position) : cut ∈ cutsFrom p data last position count ↔
      position < cut ∧ cut ≤ position + count ∧ matchesAt p data cut = true := by
  induction count generalizing last position with
  | zero =>
    simp only [cutsFrom, List.not_mem_nil, false_iff]
    omega
  | succ count ih =>
    have hrule := cutsAt_of_unbounded hmin hmax data (Nat.lt_succ_of_le hle)
    rw [cutsFrom, hrule]
    by_cases hmatch : matchesAt p data (position + 1) = true
    · rw [if_pos hmatch, List.mem_cons, ih (Nat.le_refl _)]
      constructor
      · rintro (rfl | ⟨hlt, hbound, hcut⟩)
        · exact ⟨by omega, by omega, hmatch⟩
        · exact ⟨by omega, by omega, hcut⟩
      · rintro ⟨hlt, hbound, hcut⟩
        by_cases heq : cut = position + 1
        · exact Or.inl heq
        · exact Or.inr ⟨by omega, by omega, hcut⟩
    · rw [if_neg hmatch, ih (by omega)]
      constructor
      · rintro ⟨hlt, hbound, hcut⟩
        exact ⟨by omega, by omega, hcut⟩
      · rintro ⟨hlt, hbound, hcut⟩
        have hne : cut ≠ position + 1 := by
          rintro rfl
          exact hmatch hcut
        exact ⟨by omega, by omega, hcut⟩

theorem mem_cuts_iff (data : Bytes) {cut : Nat} :
    cut ∈ cuts p data ↔ 0 < cut ∧ cut ≤ data.length ∧ matchesAt p data cut = true := by
  rw [cuts, mem_cutsFrom_iff hmin hmax data data.length (Nat.le_refl 0), Nat.zero_add]

/-- Behind an edit the same places are cut, once the window has left it. -/
theorem cut_behind_edit {front front' back : Bytes} {i : Nat} (hwidth : p.width ≤ i)
    (hcut : front.length + i ∈ cuts p (front ++ back)) :
    front'.length + i ∈ cuts p (front' ++ back) := by
  rw [mem_cuts_iff hmin hmax, matchesAt_front p _ hwidth, List.length_append] at hcut ⊢
  have hpositive := p.width_pos
  exact ⟨by omega, by omega, hcut.2.2⟩

end Unbounded

/-- A chunk that ends in front of an edit and is not the last one stays. -/
theorem mem_chunkBytes_of_last_le {p : Params} {front behind behind' : Bytes} {x : Chunk}
    (hx : x ∈ (chunkBytes p (front ++ behind)).dropLast) (hlast : x.last ≤ front.length) :
    x ∈ chunkBytes p (front ++ behind') := by
  have hclosed : x ∈ (closedPieces p (front ++ behind)).map (Chunker.ofPiece p) := by
    rw [chunkBytes_eq, pieces_eq, List.map_append, openPiece] at hx
    split at hx
    · rwa [List.map_singleton, List.dropLast_concat] at hx
    · rw [List.map_nil, List.append_nil] at hx
      exact List.mem_of_mem_dropLast hx
  obtain ⟨piece, hpiece, rfl⟩ := List.mem_map.mp hclosed
  rw [closedPieces_append, List.mem_append] at hpiece
  rw [chunkBytes_eq]
  apply List.mem_map_of_mem
  apply mem_pieces_of_mem_closedPieces
  rw [closedPieces_append, List.mem_append]
  rcases hpiece with hpiece | hpiece
  · exact Or.inl hpiece
  · have hend : pieceEnd piece ∈ newCuts p front behind := by
      rw [← map_pieceEnd_newPieces]
      exact List.mem_map_of_mem hpiece
    have hbounds := mem_newCuts_bounds hend
    rw [last_ofPiece] at hlast
    omega

/-- **An edit disturbs only nearby chunks.**  Where chunks have no bounds on their
    size, those that end in front of an edit stay as they are, all but the last,
    and those that start a window or more behind it stay with the bytes behind it. -/
theorem edit_disturbs_nearby_chunks (p : Params) (hmin : p.minSize ≤ 1) (hmax : p.maxSize = none)
    (front old new back : Bytes) :
    (∀ x ∈ (chunkBytes p (front ++ old ++ back)).dropLast, x.last ≤ front.length →
      x ∈ chunkBytes p (front ++ new ++ back)) ∧
    ∀ x ∈ chunkBytes p (front ++ old ++ back), (front ++ old).length + p.width ≤ x.first →
      ∃ y ∈ chunkBytes p (front ++ new ++ back),
        Chunk.Shifted (front ++ old).length (front ++ new).length x y := by
  constructor
  · intro x hx hlast
    rw [List.append_assoc] at hx ⊢
    exact mem_chunkBytes_of_last_le hx hlast
  · intro x hx hfirst
    obtain ⟨i, hi⟩ := Nat.exists_eq_add_of_le (Nat.le_of_add_right_le hfirst)
    have hwidth : p.width ≤ i := by omega
    have hpositive := p.width_pos
    have hcut : (front ++ old).length + i ∈ cuts p (front ++ old ++ back) := by
      rw [chunkBytes_eq] at hx
      obtain ⟨piece, hpiece, rfl⟩ := List.mem_map.mp hx
      rcases List.mem_cons.mp (first_mem_of_mem_piecesFrom hpiece) with hzero | hcut
      · have hstart : (Chunker.ofPiece p piece).first = piece.1 := rfl
        omega
      · exact hi ▸ hcut
    have hcut' : (front ++ new).length + i ∈ cuts p (front ++ new ++ back) :=
      cut_behind_edit hmin hmax hwidth hcut
    have hmem : x ∈ (chunkBytes p (front ++ old ++ back)).filter
        ((front ++ old).length + i ≤ ·.first) :=
      List.mem_filter.mpr ⟨hx, decide_eq_true (Nat.le_of_eq hi.symm)⟩
    rw [filter_first_of_front hwidth hcut] at hmem
    obtain ⟨piece, hpiece, rfl⟩ := List.mem_map.mp hmem
    refine ⟨_, ?_, shifted_ofPiece p _ (front ++ new).length piece⟩
    have hmem' := List.mem_map_of_mem (f := fun piece : Nat × Bytes =>
      Chunker.ofPiece p ((front ++ new).length + piece.1, piece.2)) hpiece
    rw [← filter_first_of_front hwidth hcut'] at hmem'
    exact (List.mem_filter.mp hmem').1

def evenSums : Params := ⟨2, 1, 1, 0, none, false⟩

/-- A byte more splits the chunk that it falls into; the chunk in front and those
    behind are the old ones. -/
theorem edit_disturbs_nearby_chunks_insertion : evenSums.minSize ≤ 1 ∧ evenSums.maxSize = none ∧
    ⟨[1, 3], some 0, none⟩ ∈ chunkBytes evenSums ([1, 3, 2] ++ [7] ++ [1, 3, 2, 5, 5, 6]) ∧
    ∃ y ∈ chunkBytes evenSums ([1, 3, 2] ++ [7] ++ [1, 3, 2, 5, 5, 6]),
      Chunk.Shifted 3 4 ⟨[2, 5, 5], some 5, none⟩ y := by
  have hmin : evenSums.minSize ≤ 1 := by decide
  obtain ⟨hfront, hback⟩ :=
    edit_disturbs_nearby_chunks evenSums hmin rfl [1, 3, 2] [] [7] [1, 3, 2, 5, 5, 6]
  have hcommon : ⟨[1, 3], some 0, none⟩ ∈
      (chunkBytes evenSums ([1, 3, 2] ++ [] ++ [1, 3, 2, 5, 5, 6])).dropLast := by decide
  have hmoved : ⟨[2, 5, 5], some 5, none⟩ ∈
      chunkBytes evenSums ([1, 3, 2] ++ [] ++ [1, 3, 2, 5, 5, 6]) := by decide
  exact ⟨hmin, rfl, hfront _ hcommon (by decide), hback _ hmoved (by decide)⟩

end DedupArchive
