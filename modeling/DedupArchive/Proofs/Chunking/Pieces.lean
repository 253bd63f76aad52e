/-
  DedupArchive/Proofs/Chunking/Pieces.lean
  ========================================
  **The pieces of a byte string.**

  Cuts ascend, so the pieces between them stand one behind the other, none is
  empty, and together they are the byte string.  All but the last are ended by a
  cut; the last one is ended by a cut or by the end.  Whether a position is cut
  does not depend on anything behind it.
-/
import DedupArchive.Chunking.Cut
import DedupArchive.Proofs.Chunking.Rolling

namespace DedupArchive

/-! ### The rule looks back only -/

theorem windowBefore_append {p : Params} {data : Bytes} {position : Nat} (more : Bytes)
    (hfull : p.width ≤ position) (hle : position ≤ data.length) :
    windowBefore p (data ++ more) position = windowBefore p data position := by
  rw [windowBefore, windowBefore, List.drop_append_of_le_length (by omega),
    List.take_append_of_le_length]
  rw [List.length_drop]
  omega

theorem cutsAt_append {p : Params} {data : Bytes} {position : Nat} (more : Bytes) (last : Nat)
    (hle : position ≤ data.length) :
    cutsAt p (data ++ more) last position = cutsAt p data last position := by
  have hmatch : matchesAt p (data ++ more) position = matchesAt p data position := by
    by_cases hfull : p.width ≤ position
    · rw [matchesAt, matchesAt, windowBefore_append more hfull hle]
    · rw [matchesAt, matchesAt, decide_eq_false hfull, Bool.false_and, Bool.false_and]
  rw [cutsAt, cutsAt, hmatch]

/-! ### Pieces that a cut ends -/

/-- The last of some cuts; a position if there are none. -/
def lastCut (position : Nat) (cuts : List Nat) : Nat := cuts.getLastD position

def closedFrom (data : Bytes) (position : Nat) : List Nat → List (Nat × Bytes)
  | [] => []
  | cut :: rest =>
    (position, (data.drop position).take (cut - position)) :: closedFrom data cut rest

def closedPieces (p : Params) (data : Bytes) : List (Nat × Bytes) :=
  closedFrom data 0 (cuts p data)

def openPiece (data : Bytes) (last : Nat) : List (Nat × Bytes) :=
  if last < data.length then [(last, data.drop last)] else []

@[simp] theorem lastCut_cons (position cut : Nat) (rest : List Nat) :
    lastCut position (cut :: rest) = lastCut cut rest := by
  rw [lastCut, lastCut, List.getLastD_cons]

theorem piecesFrom_eq (data : Bytes) (position : Nat) (cuts : List Nat) :
    piecesFrom data position cuts =
      closedFrom data position cuts ++ openPiece data (lastCut position cuts) := by
  induction cuts generalizing position with
  | nil => rfl
  | cons cut rest ih => rw [piecesFrom, closedFrom, ih, lastCut_cons, List.cons_append]

/-- The pieces of a byte string are those that a cut ends and what is left. -/
theorem pieces_eq (p : Params) (data : Bytes) :
    pieces p data = closedPieces p data ++ openPiece data (lastCut 0 (cuts p data)) :=
  piecesFrom_eq data 0 (cuts p data)

/-! ### Cuts ascend -/

theorem cutsFrom_pairwise (p : Params) (data : Bytes) {last position : Nat} (count : Nat)
    (hle : last ≤ position) :
    (last :: cutsFrom p data last position count).Pairwise (· < ·) ∧
      ∀ cut ∈ cutsFrom p data last position count, cut ≤ position + count := by
  induction count generalizing last position with
  | zero => simp [cutsFrom]
  | succ count ih =>
    rw [cutsFrom]
    split
    · obtain ⟨hpairwise, hbound⟩ := ih (Nat.le_refl (position + 1))
      refine ⟨List.pairwise_cons.mpr ⟨?_, hpairwise⟩, ?_⟩
      · intro cut hcut
        rcases List.mem_cons.mp hcut with rfl | hcut
        · omega
        · have := (List.pairwise_cons.mp hpairwise).1 cut hcut
          omega
      · intro cut hcut
        rcases List.mem_cons.mp hcut with rfl | hcut
        · omega
        · have := hbound cut hcut
          omega
    · obtain ⟨hpairwise, hbound⟩ := ih (Nat.le_add_right_of_le hle)
      refine ⟨hpairwise, ?_⟩
      intro cut hcut
      have := hbound cut hcut
      omega

/-- Pieces between ascending cuts are what stands from the first position on. -/
theorem flatten_piecesFrom {data : Bytes} {position : Nat} {cuts : List Nat}
    (hascend : (position :: cuts).Pairwise (· < ·)) (hbound : ∀ cut ∈ cuts, cut ≤ data.length) :
    ((piecesFrom data position cuts).map (·.2)).flatten = data.drop position := by
  induction cuts generalizing position with
  | nil =>
    rw [piecesFrom]
    split
    · simp
    · rw [List.drop_of_length_le (by omega)]
      rfl
  | cons cut rest ih =>
    obtain ⟨hfirst, hrest⟩ := List.pairwise_cons.mp hascend
    have hlt : position < cut := hfirst cut List.mem_cons_self
    rw [piecesFrom, List.map_cons, List.flatten_cons,
      ih hrest fun c hc => hbound c (List.mem_cons_of_mem cut hc)]
    have hdrop : data.drop cut = (data.drop position).drop (cut - position) := by
      rw [List.drop_drop]
      congr 1
      omega
    rw [hdrop, List.take_append_drop]

theorem ne_nil_of_mem_piecesFrom {data : Bytes} {position : Nat} {cuts : List Nat}
    (hascend : (position :: cuts).Pairwise (· < ·)) (hbound : ∀ cut ∈ cuts, cut ≤ data.length)
    {piece : Nat × Bytes} (hpiece : piece ∈ piecesFrom data position cuts) : piece.2 ≠ [] := by
  induction cuts generalizing position with
  | nil =>
    rw [piecesFrom] at hpiece
    split at hpiece
    · rw [List.mem_singleton] at hpiece
      subst hpiece
      rw [← List.length_pos_iff, List.length_drop]
      omega
    · cases hpiece
  | cons cut rest ih =>
    obtain ⟨hfirst, hrest⟩ := List.pairwise_cons.mp hascend
    have hlt : position < cut := hfirst cut List.mem_cons_self
    have hle : cut ≤ data.length := hbound cut List.mem_cons_self
    rw [piecesFrom] at hpiece
    rcases List.mem_cons.mp hpiece with rfl | hpiece
    · rw [← List.length_pos_iff, List.length_take, List.length_drop]
      omega
    · exact ih hrest (fun c hc => hbound c (List.mem_cons_of_mem cut hc)) hpiece

/-! ### The pieces of a whole byte string -/

theorem cuts_ascend (p : Params) (data : Bytes) :
    (0 :: cuts p data).Pairwise (· < ·) ∧ ∀ cut ∈ cuts p data, cut ≤ data.length := by
  have h := cutsFrom_pairwise p data data.length (Nat.le_refl 0)
  rw [Nat.zero_add] at h
  exact h

/-- The pieces of a byte string make it up. -/
theorem flatten_pieces (p : Params) (data : Bytes) :
    ((pieces p data).map (·.2)).flatten = data :=
  flatten_piecesFrom (cuts_ascend p data).1 (cuts_ascend p data).2

theorem ne_nil_of_mem_pieces {p : Params} {data : Bytes} {piece : Nat × Bytes}
    (hpiece : piece ∈ pieces p data) : piece.2 ≠ [] :=
  ne_nil_of_mem_piecesFrom (cuts_ascend p data).1 (cuts_ascend p data).2 hpiece

theorem mem_pieces_of_mem_closedPieces {p : Params} {data : Bytes} {piece : Nat × Bytes}
    (hpiece : piece ∈ closedPieces p data) : piece ∈ pieces p data := by
  rw [pieces_eq]
  exact List.mem_append_left _ hpiece

/-- The pieces that a cut ends are no longer than the byte string. -/
theorem length_flatten_closedPieces (p : Params) (data : Bytes) :
    (((closedPieces p data).map (·.2)).flatten).length ≤ data.length := by
  have h := congrArg List.length (flatten_pieces p data)
  rw [pieces_eq, List.map_append, List.flatten_append, List.length_append] at h
  omega

/-! ### The rule in full -/

/-- A position is cut when it is far enough from the last cut, and either a cut
    is forced there or the window before it is full and hashes to a value that
    ends in zeros. -/
def IsCut (p : Params) (data : Bytes) (last position : Nat) : Prop :=
  p.minSize.toNat ≤ position - last ∧
    ((∃ max, p.maxSize = some max ∧ max.toNat ≤ position - last) ∨
      p.width ≤ position ∧ ∃ value,
        (Roller.ofWidth p.width p.multiplier p.width_pos).hash
          ((data.drop (position - p.width)).take p.width) = .ok value ∧ value &&& p.mask = 0)

/-- The hash of the window before a position is its fingerprint. -/
theorem hash_windowBefore {p : Params} {data : Bytes} {position : Nat}
    (hfull : p.width ≤ position) (hle : position ≤ data.length) :
    (Roller.ofWidth p.width p.multiplier p.width_pos).hash (windowBefore p data position) =
      .ok (fingerprint p.multiplier (windowBefore p data position)) := by
  have hlength : (windowBefore p data position).length = p.width := by
    rw [windowBefore, List.length_take, List.length_drop]
    omega
  simp only [Roller.hash, Roller.ofWidth, hlength, Nat.lt_irrefl, if_false]
  rw [List.take_of_length_le (Nat.le_of_eq hlength)]

theorem cutsAt_iff_isCut {p : Params} {data : Bytes} (last : Nat) {position : Nat}
    (hle : position ≤ data.length) :
    cutsAt p data last position = true ↔ IsCut p data last position := by
  have hforced : p.maxSize.any (·.toNat ≤ position - last) = true ↔
      ∃ max, p.maxSize = some max ∧ max.toNat ≤ position - last := by
    simp only [Option.any_eq_true, decide_eq_true_eq]
  have hmatch : matchesAt p data position = true ↔ p.width ≤ position ∧ ∃ value,
      (Roller.ofWidth p.width p.multiplier p.width_pos).hash (windowBefore p data position) =
        .ok value ∧ value &&& p.mask = 0 := by
    rw [matchesAt, Bool.and_eq_true, decide_eq_true_iff, beq_iff_eq]
    constructor
    · rintro ⟨hfull, hzero⟩
      exact ⟨hfull, _, hash_windowBefore hfull hle, hzero⟩
    · rintro ⟨hfull, value, hhash, hzero⟩
      rw [hash_windowBefore hfull hle, Except.ok.injEq] at hhash
      exact ⟨hfull, hhash ▸ hzero⟩
  rw [cutsAt, Bool.and_eq_true, decide_eq_true_iff, Bool.or_eq_true, hforced, hmatch, IsCut,
    windowBefore]

end DedupArchive
