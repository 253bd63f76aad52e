/-
  DedupArchive/Proofs/Catalog/Liveness.lean
  =========================================
  **Four questions, one answer.**

  Whether a blob is still needed is asked in four ways.  A deletion asks which
  digests the archive refers to and whether others refer to them; an audit asks
  for all digests that are referred to; and one digest can be asked for.  Over
  rows that hold digests the questions agree, whatever else stands in the rows:
  digests that come again, one digest with several lengths, archives that were
  never finished.

  The audit's question reads lengths as well, and the column of lengths holds
  what is no integer.  At such a row it gives no answer, while the others do.
-/
import DedupArchive.Proofs.Catalog.Entries
import DedupArchive.Proofs.Catalog.Numbers
import DedupArchive.Proofs.Catalog.Ordering

namespace DedupArchive

/-! ### Runs in a sorted list -/

section Runs

variable {α : Type} {le same : α → α → Bool}
  (htrans : ∀ a b c, le a b = true → le b c = true → le a c = true)
  (htotal : ∀ a b, (le a b || le b a) = true)
  (hsame : ∀ a b, same a b = (le a b && le b a))

include htrans htotal hsame

/-- In a sorted list what is kept comes before what is kept later, and is not the same. -/
theorem pairwise_dropRepeats {kept : α} {rows : List α}
    (hsorted : (kept :: rows).Pairwise fun a b => le a b = true) :
    (kept :: dropRepeats same kept rows).Pairwise fun a b => le a b = true ∧ same a b = false := by
  induction rows generalizing kept with
  | nil => exact List.pairwise_singleton _ _
  | cons x rest ih =>
    obtain ⟨hkept, hrest⟩ := List.pairwise_cons.mp hsorted
    rw [dropRepeats]
    split
    · apply ih
      exact hsorted.sublist (.cons_cons kept (List.sublist_cons_self x rest))
    · rename_i hnew
      refine List.pairwise_cons.mpr ⟨?_, ih hrest⟩
      intro y hy
      have hmem : y ∈ x :: rest := by
        rcases List.mem_cons.mp hy with rfl | hy
        · exact List.mem_cons_self
        · exact List.mem_cons_of_mem x (mem_of_mem_dropRepeats hy)
      have hxy : le x y = true := by
        rcases List.mem_cons.mp hmem with rfl | hmem
        · exact (Bool.or_self _).symm.trans (htotal y y)
        · exact (List.pairwise_cons.mp hrest).1 y hmem
      refine ⟨hkept y hmem, ?_⟩
      rw [← Bool.not_eq_true, hsame, Bool.and_eq_true]
      rintro ⟨-, hyk⟩
      -- then the row between them would be the same as the first
      apply hnew
      rw [hsame, hkept x List.mem_cons_self, htrans x y kept hxy hyk]
      rfl

theorem pairwise_firstOfRuns_mergeSort (rows : List α) :
    (firstOfRuns same (rows.mergeSort le)).Pairwise fun a b => le a b = true ∧ same a b = false := by
  have hsorted := List.pairwise_mergeSort htrans htotal rows
  cases hrows : rows.mergeSort le with
  | nil => exact .nil
  | cons x rest =>
    rw [hrows] at hsorted
    exact pairwise_dropRepeats htrans htotal hsame hsorted

end Runs

theorem ChunkRow.blobSame_eq (a b : Cell × Cell) : blobSame a b = (blobLE a b && blobLE b a) := by
  rw [blobSame, blobLE, blobLE, Cell.same_comm b.1 a.1]
  cases h : a.1.same b.1 with
  | true => rfl
  | false => exact h.symm

/-- A number above zero is read, unless it is no integer. -/
theorem Cell.toNatural_eq_error {c : Cell} {index : Nat} {column : String} {e : CatalogError}
    (habove : c.aboveZero = true) (h : c.toNatural index column = .error e) :
    (∀ n : Nat, c ≠ .integer n) ∧ e = .wrongClass index column c.storage := by
  constructor
  · rintro n rfl
    rw [toNatural_eq_ok_iff.mpr rfl] at h
    cases h
  · cases c with
    | integer value =>
      rw [aboveZero_integer_iff] at habove
      obtain ⟨n, rfl⟩ := Int.eq_ofNat_of_zero_le habove.le
      rw [toNatural_eq_ok_iff.mpr rfl] at h
      cases h
    | null | real _ | text _ | blob _ =>
      cases h
      rfl

/-- Rows in order are read in order, if what is read says what the row was. -/
theorem pairwise_of_mapM {ε α β : Type} {f : α → Except ε β} {g : β → α} {R : α → α → Prop}
    {rows : List α} {answer : List β} (h : rows.mapM f = .ok answer)
    (hread : ∀ a b, f a = .ok b → g b = a) (hrows : rows.Pairwise R) :
    answer.Pairwise fun x y => R (g x) (g y) := by
  have hmap : answer.map g = rows.map fun a => a := map_eq_of_mapM h hread
  rw [List.map_id'] at hmap
  rwa [← hmap, List.pairwise_map] at hrows

namespace Catalog

variable {c : Catalog} {id : Int}

/-! ### Answers in order -/

/-- The digests of an archive come in ascending order, none of them twice. -/
theorem archiveDigests_ascend {digests : List Digest} (h : c.archiveDigests id = .ok digests) :
    digests.Pairwise fun d e => compare d e = .lt := by
  have hcells := @pairwise_firstOfRuns_mergeSort _ Cell.le Cell.same (fun _ _ _ => Cell.le_trans)
    Cell.total (fun _ _ => rfl) ((ChunkRow.byOffset (c.chunkRows id)).map (·.digest))
  have hruns := pairwise_of_mapM (g := Digest.cell) h
    (fun _ _ hread => (Cell.toDigest_eq_ok_iff.mp hread).symm) hcells
  apply hruns.imp
  rintro d e ⟨hle, hnew⟩
  have hne : d ≠ e := by
    rintro rfl
    rw [Cell.same_refl] at hnew
    cases hnew
  exact lt_of_isLE_of_ne (x := d) (y := e) hle hne

/-- The pairs of digest and length come in ascending order, none of them twice. -/
theorem referenced_ascend {refs : List (Digest × Nat)} (h : c.referenced = .ok refs) :
    refs.Pairwise fun x y => compare x.1 y.1 = .lt ∨ x.1 = y.1 ∧ x.2 < y.2 := by
  have hcells := pairwise_firstOfRuns_mergeSort ChunkRow.blobLE_trans ChunkRow.blobLE_total
    ChunkRow.blobSame_eq (c.chunks.reverse.map fun r => (r.digest, r.length))
  have hruns := pairwise_of_mapM (g := fun ref : Digest × Nat => (ref.1.cell, .integer ref.2)) h
    (fun (_, _) (_, _) hread =>
      (Prod.ext (reference_eq_ok_iff.mp hread).1 (reference_eq_ok_iff.mp hread).2).symm) hcells
  apply hruns.imp
  rintro ⟨d, n⟩ ⟨e, m⟩ ⟨hle, hnew⟩
  rw [ChunkRow.blobLE_iff] at hle
  by_cases hdigest : d = e
  · subst hdigest
    refine Or.inr ⟨rfl, ?_⟩
    have hlength : n ≤ m := by simpa [Cell.le] using hle.2 (Cell.same_refl d.cell)
    have hne : n ≠ m := by
      rintro rfl
      simp [ChunkRow.blobSame, Cell.same_refl] at hnew
    exact lt_of_le_of_ne hlength hne
  · exact Or.inl (lt_of_isLE_of_ne (x := d) (y := e) hle.1 hdigest)

/-! ### What the questions agree on -/

def HoldsDigests (c : Catalog) : Prop := ∀ r ∈ c.chunks, ∃ d : Digest, r.digest = d.cell

theorem isReferenced_iff_mem_referenced {refs : List (Digest × Nat)} (h : c.referenced = .ok refs)
    {d : Digest} : c.isReferenced d = true ↔ ∃ n, (d, n) ∈ refs := by
  rw [isReferenced_iff]
  constructor
  · rintro ⟨r, hr, hdigest⟩
    obtain ⟨n, hmem, -⟩ := exists_mem_referenced h hr hdigest
    exact ⟨n, hmem⟩
  · rintro ⟨n, hmem⟩
    obtain ⟨r, hr, hdigest, -⟩ := exists_chunk_of_mem_referenced h hmem
    exact ⟨r, hr, hdigest⟩

/-- Over digests, the question for all of them fails at a length that is no integer. -/
theorem Lawful.referenced_error (h : c.Lawful) (hdigests : c.HoldsDigests) {e : CatalogError}
    (herror : c.referenced = .error e) : ∃ r ∈ c.chunks,
      (∀ n : Nat, r.length ≠ .integer n) ∧ e = .wrongClass 1 "length" r.length.storage := by
  obtain ⟨pair, hpair, hread⟩ := exists_of_mapM_eq_error herror
  have hrow := mem_of_mem_firstOfRuns hpair
  rw [List.mem_mergeSort, List.mem_map] at hrow
  obtain ⟨r, hr, rfl⟩ := hrow
  rw [List.mem_reverse] at hr
  obtain ⟨d, hdigest⟩ := hdigests r hr
  obtain ⟨-, -, -, -, -, habove⟩ := ChunkRow.check_eq_ok_iff.mp (h.chunk_rules r hr)
  refine ⟨r, hr, Cell.toNatural_eq_error habove ?_⟩
  simp only [hdigest, Cell.toDigest_eq_ok_iff.mpr rfl] at hread
  cases hlength : r.length.toNatural 1 "length" with
  | error e' =>
    rw [hlength] at hread
    cases hread
    rfl
  | ok n =>
    rw [hlength] at hread
    cases hread

/-- **The questions agree.**  A digest is referred to exactly if the archive or
    another refers to it, and after the archive has been deleted exactly if another
    did.  The question for all digests shows the same ones, each with every length
    that a chunk of it has, if it is answered; nothing keeps it from being answered
    but a length that is no integer.  Both lists ascend. -/
theorem liveness_agrees (h : c.Lawful) (hdigests : c.HoldsDigests) (id : Int) :
    ∃ digests, c.archiveDigests id = .ok digests ∧
      (digests.Pairwise fun d e => compare d e = .lt) ∧
      (∀ d, c.isReferenced d = true ↔ d ∈ digests ∨ c.referencedElsewhere d id = true) ∧
      (∀ d, (c.deleteArchive id).isReferenced d = c.referencedElsewhere d id) ∧
      (∀ refs, c.referenced = .ok refs →
        (refs.Pairwise fun x y => compare x.1 y.1 = .lt ∨ x.1 = y.1 ∧ x.2 < y.2) ∧
        (∀ d, c.isReferenced d = true ↔ ∃ n, (d, n) ∈ refs) ∧
        ∀ d n, (d, n) ∈ refs ↔ ∃ r ∈ c.chunks, r.digest = d.cell ∧ r.length = .integer (n : Nat)) ∧
      ∀ e, c.referenced = .error e → ∃ r ∈ c.chunks,
        (∀ n : Nat, r.length ≠ .integer n) ∧ e = .wrongClass 1 "length" r.length.storage := by
  have hcells : ∀ r ∈ c.chunkRows id, ∃ d : Digest, r.digest = d.cell := fun r hr =>
    hdigests r (mem_chunkRows.mp hr).1
  obtain ⟨digests, hanswer⟩ := exists_archiveDigests hcells
  refine ⟨digests, hanswer, archiveDigests_ascend hanswer, ?_, ?_, ?_, ?_⟩
  · intro d
    rw [isReferenced_iff_uses_or c id d, mem_archiveDigests_iff hanswer, referencedElsewhere_eq h, Uses]
  · intro d
    exact (referencedElsewhere_eq h d id).symm
  · intro refs hrefs
    exact ⟨referenced_ascend hrefs, fun d => isReferenced_iff_mem_referenced hrefs,
      fun d n => mem_referenced_iff hrefs⟩
  · intro e herror
    exact h.referenced_error hdigests herror

/-- Two archives, the second unfinished: they share a blob, which comes twice in the
    first and has another length in the second. -/
def shared : Catalog :=
  ⟨[⟨1, .text "a", .integer 2, (Digest.of [7, 7]).cell⟩, ⟨2, .text "b", .null, .null⟩],
    [ChunkRecord.row 1 ⟨Digest.of [7], 0, 1⟩, ChunkRecord.row 1 ⟨Digest.of [7], 1, 1⟩,
      ChunkRecord.row 2 ⟨Digest.of [7], 0, 5⟩]⟩

theorem liveness_agrees_shared : ∃ digests refs, shared.archiveDigests 1 = .ok digests ∧
    Digest.of [7] ∈ digests ∧ shared.referenced = .ok refs ∧ (Digest.of [7], 1) ∈ refs ∧
    (Digest.of [7], 5) ∈ refs ∧ (shared.deleteArchive 1).isReferenced (Digest.of [7]) = true := by
  have hlawful : shared.Lawful := by
    constructor
    case names =>
      have hapart : (Cell.text "a").equals (.text "b") = false := by decide
      simpa [shared] using hapart
    all_goals simp [shared, ChunkRecord.row, ArchiveRow.check_eq_ok_iff, ChunkRow.check_eq_ok_iff,
      Cell.isNull, Cell.atLeastZero, Cell.aboveZero, Cell.isWord, Cell.minInteger, Cell.maxInteger,
      Cell.le, Cell.equals, Cell.same, Digest.cell]
  have hdigests : shared.HoldsDigests := by
    simp [HoldsDigests, shared, ChunkRecord.row, Cell.digest_cell_inj]
  obtain ⟨digests, hanswer, -, -, hafter, hrefs, hfails⟩ := liveness_agrees hlawful hdigests 1
  have hmem : Digest.of [7] ∈ digests := by
    rw [mem_archiveDigests_iff hanswer]
    exact ⟨_, mem_chunkRows.mpr ⟨List.mem_cons_self, Cell.equals_self rfl⟩, rfl⟩
  have helsewhere : (shared.deleteArchive 1).isReferenced (Digest.of [7]) = true := by
    rw [hafter]
    simp [referencedElsewhere, shared, ChunkRecord.row, Cell.isNull, Cell.equals, Cell.same, Cell.le,
      Digest.cell]
  cases hreferenced : shared.referenced with
  | error e =>
    obtain ⟨r, hr, hlength, -⟩ := hfails e hreferenced
    simp only [shared, List.mem_cons, List.not_mem_nil, or_false] at hr
    rcases hr with rfl | rfl | rfl <;> exact absurd rfl (hlength _)
  | ok refs =>
    obtain ⟨-, -, hpairs⟩ := hrefs refs hreferenced
    refine ⟨digests, refs, hanswer, hmem, rfl, ?_, ?_, helsewhere⟩
    · exact (hpairs _ 1).mpr ⟨_, List.mem_cons_self, rfl, rfl⟩
    · exact (hpairs _ 5).mpr ⟨ChunkRecord.row 2 ⟨Digest.of [7], 0, 5⟩, by simp [shared], rfl, rfl⟩

def withFraction : Catalog :=
  ⟨[⟨1, .text "a", .null, .null⟩], [⟨.integer 1, (Digest.of [120]).cell, .integer 1, .real (3 / 2)⟩,
    ⟨.integer 1, (Digest.of [120]).cell, .integer 0, .integer 1⟩]⟩

/-- The rules let a length in that is no integer.  The digest is referred to, and the
    question for all digests does not show it. -/
theorem fraction_hides_digests : withFraction.Lawful ∧ withFraction.Linked ∧ withFraction.HoldsDigests ∧
    withFraction.isReferenced (Digest.of [120]) = true ∧
    withFraction.referenced = .error (.wrongClass 1 "length" .real) := by
  have hlawful : withFraction.Lawful := by
    have hpos : (0 : Rat) < 3 / 2 := by decide +kernel
    constructor <;> simp [hpos, withFraction, ArchiveRow.check_eq_ok_iff, ChunkRow.check_eq_ok_iff,
      Cell.isNull, Cell.atLeastZero, Cell.aboveZero, Cell.isWord, Cell.minInteger, Cell.maxInteger,
      Cell.le, Cell.equals, Cell.same, Digest.cell]
  have hlinked : withFraction.Linked := by
    simp [Linked, withFraction, Cell.equals, Cell.isNull, Cell.same, Cell.le]
  have hdigests : withFraction.HoldsDigests := by
    simp [HoldsDigests, withFraction, Cell.digest_cell_inj]
  have hreferenced : withFraction.isReferenced (Digest.of [120]) = true := by
    simp [isReferenced_iff, withFraction]
  refine ⟨hlawful, hlinked, hdigests, hreferenced, ?_⟩
  cases hanswer : withFraction.referenced with
  | error e =>
    obtain ⟨r, hr, hlength, rfl⟩ := hlawful.referenced_error hdigests hanswer
    rcases List.mem_pair.mp hr with rfl | rfl
    · rfl
    · exact absurd rfl (hlength 1)
  | ok refs =>
    -- whatever has been read for the fraction is an integer
    obtain ⟨d, n, -, -, hsame⟩ := exists_reference hanswer List.mem_cons_self
    have hnumber : ((n : Int) : Rat) = 3 / 2 := ((Cell.same_iff _ _).mp hsame).2.1
    have hden : 1 = Rat.den (3 / 2) := congrArg Rat.den hnumber
    exact absurd hden (by decide +kernel)

end Catalog

end DedupArchive
