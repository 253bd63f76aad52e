/-
  DedupArchive/Proofs/Store/Coverage.lean
  =======================================
  **Which bytes an audit calls uncovered.**

  The rows of an archive are swept in the order of their offsets, and all that the
  sweep knows is where the last row ended.  So a byte is in a reported gap exactly
  if a row starts behind it and the last row that starts at or before it has ended
  by then.  No byte that is uncovered is left out.  But a row that ends before an
  earlier one does takes the sweep back, and bytes that the earlier row covers are
  reported after it; where no row does that, the gaps are the uncovered bytes.
  Overlaps are reported of an archive exactly if two of its rows share a byte.
-/
import DedupArchive.Proofs.Store.Faults
import Mathlib.Data.Finset.Max
import Mathlib.Data.List.Pairwise

namespace DedupArchive

/-! ### Rows as intervals -/

/-- Whether a byte of the archive belongs to a chunk. -/
def ChunkRecord.Covers (row : ChunkRecord) (p : Nat) : Prop :=
  row.offset ≤ p ∧ p < row.offset + row.length

/-- Whether a byte below the largest offset belongs to no chunk. -/
def Uncovered (rows : List ChunkRecord) (p : Nat) : Prop :=
  (∃ row ∈ rows, p < row.offset) ∧ ∀ row ∈ rows, ¬ row.Covers p

/-- Whether a row starts behind a byte and the last one that starts at or before
    it has ended, the sweep being at `expected` at first. -/
structure Passed (expected : Nat) (rows : List ChunkRecord) (p : Nat) : Prop where
  behind : ∃ row ∈ rows, p < row.offset
  first : (∀ row ∈ rows, p < row.offset) → expected ≤ p
  ended : ∀ row ∈ rows, row.offset ≤ p → (∀ row' ∈ rows, row'.offset ≤ p → row'.offset ≤ row.offset) →
    row.offset + row.length ≤ p

/-- Rows as the rules of the tables let them be, in the order of their offsets. -/
structure Swept (rows : List ChunkRecord) : Prop where
  ascend : rows.Pairwise fun r r' => r.offset < r'.offset
  last_eq : ∀ row ∈ rows, row.last = row.offset + row.length
  length_pos : ∀ row ∈ rows, 0 < row.length

namespace Swept

variable {row : ChunkRecord} {rest rows : List ChunkRecord} {p : Nat}

theorem tail (h : Swept (row :: rest)) : Swept rest :=
  ⟨h.ascend.of_cons, fun r hr => h.last_eq r (List.mem_cons_of_mem row hr),
    fun r hr => h.length_pos r (List.mem_cons_of_mem row hr)⟩

theorem lt_of_mem (h : Swept (row :: rest)) {r : ChunkRecord} (hr : r ∈ rest) : row.offset < r.offset :=
  List.rel_of_pairwise_cons h.ascend hr

end Swept

namespace Store

/-! ### Gaps -/

/-- Whether a gap of the archive that holds the byte is among the findings. -/
def ShowsGap (findings : List Finding) (name : String) (p : Nat) : Prop :=
  ∃ first last, .gap name first last ∈ findings ∧ first ≤ p ∧ p < last

theorem showsGap_coverage_cons {name : String} {expected p : Nat} {row : ChunkRecord}
    {rest : List ChunkRecord} : ShowsGap (coverage name expected (row :: rest)) name p ↔
      expected ≤ p ∧ p < row.offset ∨ ShowsGap (coverage name row.last rest) name p := by
  simp only [ShowsGap, coverage]
  split
  · constructor
    · rintro ⟨first, last, hmem, hbounds⟩
      rcases List.mem_cons.mp hmem with heq | hmem
      · cases heq
        exact Or.inl hbounds
      · exact Or.inr ⟨first, last, hmem, hbounds⟩
    · rintro (hbounds | ⟨first, last, hmem, hbounds⟩)
      · exact ⟨expected, row.offset, List.mem_cons_self, hbounds⟩
      · exact ⟨first, last, List.mem_cons_of_mem _ hmem, hbounds⟩
  · have hnone : ¬ (expected ≤ p ∧ p < row.offset) := by omega
    split <;> simp [hnone]

theorem passed_cons_of_lt {expected p : Nat} {row : ChunkRecord} {rest : List ChunkRecord}
    (h : Swept (row :: rest)) (hp : p < row.offset) : Passed expected (row :: rest) p ↔ expected ≤ p := by
  have hall : ∀ r ∈ row :: rest, p < r.offset := by
    intro r hr
    rcases List.mem_cons.mp hr with rfl | hr
    · exact hp
    · exact hp.trans (h.lt_of_mem hr)
  constructor
  · intro hpassed
    exact hpassed.first hall
  · intro hexpected
    refine ⟨⟨row, List.mem_cons_self, hp⟩, fun _ => hexpected, ?_⟩
    intro r hr hle
    exact absurd (hall r hr) (Nat.not_lt.mpr hle)

theorem passed_cons_of_le {expected p : Nat} {row : ChunkRecord} {rest : List ChunkRecord}
    (h : Swept (row :: rest)) (hp : row.offset ≤ p) :
    Passed expected (row :: rest) p ↔ Passed row.last rest p := by
  have hlast := h.last_eq row List.mem_cons_self
  constructor
  · intro hpassed
    refine ⟨?_, ?_, ?_⟩
    · obtain ⟨r, hr, hlt⟩ := hpassed.behind
      rcases List.mem_cons.mp hr with rfl | hr
      · omega
      · exact ⟨r, hr, hlt⟩
    · intro hnone
      rw [hlast]
      apply hpassed.ended row List.mem_cons_self hp
      intro r hr hle
      rcases List.mem_cons.mp hr with rfl | hr
      · exact Nat.le_refl _
      · exact absurd (hnone r hr) (Nat.not_lt.mpr hle)
    · intro r hr hle hlatest
      apply hpassed.ended r (List.mem_cons_of_mem row hr) hle
      intro r' hr' hle'
      rcases List.mem_cons.mp hr' with rfl | hr'
      · exact (h.lt_of_mem hr).le
      · exact hlatest r' hr' hle'
  · intro hpassed
    refine ⟨?_, ?_, ?_⟩
    · obtain ⟨r, hr, hlt⟩ := hpassed.behind
      exact ⟨r, List.mem_cons_of_mem row hr, hlt⟩
    · intro hnone
      have := hnone row List.mem_cons_self
      omega
    · intro r hr hle hlatest
      rcases List.mem_cons.mp hr with rfl | hr
      -- no later row has started by then
      · rw [← hlast]
        apply hpassed.first
        intro r' hr'
        by_contra hnot
        have := hlatest r' (List.mem_cons_of_mem r hr') (by omega)
        have := h.lt_of_mem hr'
        omega
      · apply hpassed.ended r hr hle
        intro r' hr' hle'
        exact hlatest r' (List.mem_cons_of_mem row hr') hle'

/-- **Where the sweep has passed**, there it reports a gap, and nowhere else. -/
theorem showsGap_coverage_iff (name : String) {expected p : Nat} {rows : List ChunkRecord}
    (h : Swept rows) : ShowsGap (coverage name expected rows) name p ↔ Passed expected rows p := by
  induction rows generalizing expected with
  | nil =>
    constructor
    · rintro ⟨first, last, hmem, -⟩
      cases hmem
    · rintro ⟨⟨row, hrow, -⟩, -, -⟩
      cases hrow
  | cons row rest ih =>
    rw [showsGap_coverage_cons, ih h.tail]
    by_cases hp : p < row.offset
    · rw [passed_cons_of_lt h hp]
      -- what the sweep has passed after the row lies behind it
      have hnone : ¬ Passed row.last rest p := by
        intro hpassed
        have hlast := h.last_eq row List.mem_cons_self
        have := hpassed.first fun r hr => hp.trans (h.lt_of_mem hr)
        omega
      simp [hp, hnone]
    · have hle : row.offset ≤ p := Nat.not_lt.mp hp
      rw [passed_cons_of_le h hle]
      simp [hp]

/-- No uncovered byte is left out. -/
theorem passed_of_uncovered {rows : List ChunkRecord} {p : Nat} (h : Uncovered rows p) :
    Passed 0 rows p := by
  refine ⟨h.1, fun _ => Nat.zero_le p, ?_⟩
  intro row hrow hle _
  have huncovered := h.2 row hrow
  rw [ChunkRecord.Covers] at huncovered
  omega

/-- Where no row ends before an earlier one does, what has been passed is uncovered. -/
theorem uncovered_of_passed {expected p : Nat} {rows : List ChunkRecord}
    (hends : ∀ r ∈ rows, ∀ r' ∈ rows, r.offset ≤ r'.offset → r.offset + r.length ≤ r'.offset + r'.length)
    (h : Passed expected rows p) : Uncovered rows p := by
  refine ⟨h.behind, ?_⟩
  rintro row hrow ⟨hle, hlt⟩
  -- the last row to start at or before the byte ends no earlier than this one
  have hstarted : row ∈ (rows.filter (·.offset ≤ p)).toFinset := by simp [hrow, hle]
  obtain ⟨latest, hlatest, hmax⟩ := Finset.exists_max_image _ ChunkRecord.offset ⟨row, hstarted⟩
  simp only [List.mem_toFinset, List.mem_filter, decide_eq_true_eq] at hlatest hmax
  have hended := h.ended latest hlatest.1 hlatest.2 fun r hr hr' => hmax r ⟨hr, hr'⟩
  have hend := hends row hrow latest hlatest.1 (hmax row ⟨hrow, hle⟩)
  omega

/-! ### Overlaps -/

theorem not_overlap_coverage_iff (name : String) (expected : Nat) {rows : List ChunkRecord}
    (h : Swept rows) : (∀ offset, .overlap name offset ∉ coverage name expected rows) ↔
      (∀ row ∈ rows, expected ≤ row.offset) ∧ rows.Pairwise fun r r' => r.last ≤ r'.offset := by
  induction rows generalizing expected with
  | nil => simp [coverage]
  | cons row rest ih =>
    have hlast := h.last_eq row List.mem_cons_self
    have hcons : (∀ offset, .overlap name offset ∉ coverage name expected (row :: rest)) ↔
        expected ≤ row.offset ∧ ∀ offset, .overlap name offset ∉ coverage name row.last rest := by
      rw [coverage]
      split
      · rename_i hlt
        simp [hlt.le]
      · split
        · rename_i hlt
          constructor
          · intro hnone
            exact absurd List.mem_cons_self (hnone row.offset)
          · rintro ⟨hle, -⟩
            omega
        · rename_i hge
          simp [Nat.not_lt.mp hge]
    rw [hcons, ih _ h.tail, List.forall_mem_cons, List.pairwise_cons]
    constructor
    · rintro ⟨hexpected, hbehind, hrest⟩
      refine ⟨⟨hexpected, ?_⟩, hbehind, hrest⟩
      intro r hr
      exact hexpected.trans (h.lt_of_mem hr).le
    · rintro ⟨⟨hexpected, -⟩, hbehind, hrest⟩
      exact ⟨hexpected, hbehind, hrest⟩

/-- Whether two chunks have a byte in common. -/
def SharesByte (rows : List ChunkRecord) : Prop :=
  ∃ r ∈ rows, ∃ r' ∈ rows, r ≠ r' ∧ ∃ p, r.Covers p ∧ r'.Covers p

theorem pairwise_last_le_iff {rows : List ChunkRecord} (h : Swept rows) :
    (rows.Pairwise fun r r' => r.last ≤ r'.offset) ↔ ¬ SharesByte rows := by
  constructor
  · rintro hpairwise ⟨r, hr, r', hr', hne, p, hcovers, hcovers'⟩
    have happart : rows.Pairwise fun r r' => r.last ≤ r'.offset ∨ r'.last ≤ r.offset :=
      hpairwise.imp Or.inl
    have : Std.Symm fun r r' : ChunkRecord => r.last ≤ r'.offset ∨ r'.last ≤ r.offset :=
      ⟨fun _ _ => Or.symm⟩
    have hdisjoint := happart.forall hr hr' hne
    rw [h.last_eq r hr, h.last_eq r' hr'] at hdisjoint
    obtain ⟨hle, hlt⟩ := hcovers
    obtain ⟨hle', hlt'⟩ := hcovers'
    omega
  · intro hnone
    apply h.ascend.imp_of_mem
    intro r r' hr hr' hlt
    by_contra hover
    rw [h.last_eq r hr] at hover
    -- the first byte of the later row belongs to both
    have hpositive := h.length_pos r' hr'
    apply hnone
    refine ⟨r, hr, r', hr', ?_, r'.offset, ⟨hlt.le, by omega⟩, ⟨Nat.le_refl _, by omega⟩⟩
    rintro rfl
    exact Nat.lt_irrefl _ hlt

theorem exists_overlap_coverage_iff (name : String) {rows : List ChunkRecord} (h : Swept rows) :
    (∃ offset, .overlap name offset ∈ coverage name 0 rows) ↔ SharesByte rows := by
  have hnone := not_overlap_coverage_iff name 0 h
  rw [pairwise_last_le_iff h] at hnone
  rw [← not_iff_not, not_exists, hnone]
  simp

/-! ### Rows of an archive -/

theorem swept_chunksOf {c : Catalog} (hlawful : c.Lawful) {id : Int} {rows : List ChunkRecord}
    (h : c.chunksOf id = .ok rows) : Swept rows := by
  refine ⟨hlawful.chunksOf_ascend h, ?_, ?_⟩
  · intro row hrow
    have hbounds := hlawful.chunk_bounds h hrow
    rw [ChunkRecord.last, maxWord]
    omega
  · intro row hrow
    exact (hlawful.chunk_bounds h hrow).2.1

/-! ### The report -/

def IsPlacing : Finding → Prop
  | .gap .. | .overlap .. => True
  | _ => False

variable {σ : Type} [BlobStore σ] {s : Store σ}

theorem not_isPlacing_of_mem_digestFindings {a : ArchiveRecord} {rows : List ChunkRecord} {f : Finding}
    (h : f ∈ s.digestFindings a rows) : ¬ IsPlacing f := by
  rw [digestFindings] at h
  split at h
  · rename_i finding herror
    obtain ⟨d, e, rfl⟩ := eq_of_reassemble_error herror
    cases List.mem_singleton.mp h
    exact id
  · split at h
    · cases List.mem_singleton.mp h
      exact id
    · cases h

section Report

variable {report : AuditReport} (haudit : s.audit = .ok report) {f : Finding} (hplacing : IsPlacing f)

include haudit hplacing

/-- Where chunks stand is looked at in one step only. -/
theorem mem_findings_iff_of_isPlacing : f ∈ report.findings ↔ ∃ archives,
    s.catalog.completed = .ok archives ∧ ∃ a ∈ archives, ∃ rows,
      s.catalog.chunksOf a.id = .ok rows ∧ f ∈ coverage a.name 0 rows := by
  obtain ⟨archives, unfinished, uncovered, orphans, damaged, blobs, mismatched, mislength, harchives,
    hunfinished, huncovered, horphans, hdamaged, hmismatched, hmislength, rfl⟩ :=
    audit_eq_ok_iff.mp haudit
  have hcovered : f ∈ uncovered ↔ ∃ a ∈ archives, ∃ rows,
      s.catalog.chunksOf a.id = .ok rows ∧ f ∈ coverage a.name 0 rows := mem_findEach_iff huncovered
  constructor
  · intro hf
    refine ⟨archives, harchives, ?_⟩
    rw [← hcovered]
    simp only [List.mem_append] at hf
    rcases hf with ((((hf | hf) | hf) | hf) | hf) | hf
    · obtain ⟨name, rfl⟩ := eq_of_mem_findUnfinished hunfinished hf
      exact hplacing.elim
    · exact hf
    · obtain ⟨d, rfl⟩ := eq_of_mem_findOrphans horphans hf
      exact hplacing.elim
    · obtain ⟨refs, -, ref, -, hf⟩ := (mem_findDamaged_iff hdamaged).mp hf
      rcases mem_checkBlob_iff.mp hf with ⟨e, -, rfl⟩ | ⟨data, -, ⟨-, rfl⟩ | ⟨-, -, rfl⟩⟩ <;>
        exact hplacing.elim
    · obtain ⟨a, -, rows, -, hf⟩ := (mem_findEach_iff hmismatched).mp hf
      exact absurd hplacing (not_isPlacing_of_mem_digestFindings hf)
    · obtain ⟨totals, -, t, -, -, rfl⟩ := (mem_findMislength_iff hmislength).mp hf
      exact hplacing.elim
  · rintro ⟨archives', harchives', hf⟩
    cases harchives.symm.trans harchives'
    simp only [List.mem_append, hcovered.mpr hf, or_true, true_or]

/-- Of an archive the report shows what the sweep over its rows finds. -/
theorem mem_findings_iff_mem_coverage (hlawful : s.catalog.Lawful) {archives : List ArchiveRecord}
    (harchives : s.catalog.completed = .ok archives) {a : ArchiveRecord} (ha : a ∈ archives)
    {rows : List ChunkRecord} (hrows : s.catalog.chunksOf a.id = .ok rows) (hblames : f.Blames a.name) :
    f ∈ report.findings ↔ f ∈ coverage a.name 0 rows := by
  rw [mem_findings_iff_of_isPlacing haudit hplacing]
  constructor
  · rintro ⟨archives', harchives', a', ha', rows', hrows', hf⟩
    cases harchives.symm.trans harchives'
    have hname := (blames_of_mem_coverage hf).unique hblames
    obtain ⟨rfl, rfl⟩ := eq_of_same_name hlawful ((Catalog.mem_completed_iff harchives).mp ha) hrows
      ((Catalog.mem_completed_iff harchives).mp ha') hname hrows'
    exact hf
  · intro hf
    exact ⟨archives, harchives, a, ha, rows, hrows, hf⟩

end Report

/-- **Gaps and overlaps.**  If an audit of a store whose rows keep the rules reports
    at all, then of each completed archive it shows a byte in a gap exactly if the
    sweep has passed it.  Every byte that is uncovered below the largest offset is
    shown; and no other is, where no row ends before an earlier one does.  It shows
    an overlap exactly if two rows share a byte. -/
theorem audit_shows_uncovered {report : AuditReport} (hlawful : s.catalog.Lawful)
    (haudit : s.audit = .ok report) : ∃ archives, s.catalog.completed = .ok archives ∧
      ∀ a ∈ archives, ∃ rows, s.catalog.chunksOf a.id = .ok rows ∧
        (∀ p, ShowsGap report.findings a.name p ↔ Passed 0 rows p) ∧
        (∀ p, Uncovered rows p → ShowsGap report.findings a.name p) ∧
        ((∀ r ∈ rows, ∀ r' ∈ rows, r.offset ≤ r'.offset → r.offset + r.length ≤ r'.offset + r'.length) →
          ∀ p, ShowsGap report.findings a.name p ↔ Uncovered rows p) ∧
        ((∃ offset, .overlap a.name offset ∈ report.findings) ↔ SharesByte rows) := by
  obtain ⟨archives, harchives, hall⟩ := exists_rows_of_audit haudit
  refine ⟨archives, harchives, ?_⟩
  intro a ha
  obtain ⟨rows, hrows⟩ := hall a ha
  have hswept := swept_chunksOf hlawful hrows
  have hgap (p : Nat) : ShowsGap report.findings a.name p ↔ Passed 0 rows p := by
    rw [← showsGap_coverage_iff a.name hswept]
    simp only [ShowsGap, mem_findings_iff_mem_coverage haudit (show IsPlacing (.gap _ _ _) from trivial)
      hlawful harchives ha hrows rfl]
  refine ⟨rows, hrows, hgap, ?_, ?_, ?_⟩
  · intro p huncovered
    exact (hgap p).mpr (passed_of_uncovered huncovered)
  · intro hends p
    rw [hgap]
    exact ⟨uncovered_of_passed hends, passed_of_uncovered⟩
  · rw [← exists_overlap_coverage_iff a.name hswept]
    simp only [mem_findings_iff_mem_coverage haudit (show IsPlacing (.overlap _ _) from trivial)
      hlawful harchives ha hrows rfl]

def nestedChunk : Store MemoryBlobs where
  catalog.archives := [⟨1, .text "a", .integer 5, (Digest.of [97, 98, 99, 98, 100]).cell⟩]
  catalog.chunks := [⟨.integer 1, (Digest.of [97, 98, 99]).cell, .integer 0, .integer 3⟩,
    ⟨.integer 1, (Digest.of [98]).cell, .integer 1, .integer 1⟩,
    ⟨.integer 1, (Digest.of [100]).cell, .integer 3, .integer 1⟩]
  blobs := ⟨(((∅ : Std.ExtTreeMap Digest Bytes compare).insert (Digest.of [97, 98, 99]) [97, 98, 99]).insert
    (Digest.of [98]) [98]).insert (Digest.of [100]) [100]⟩
  params := .standard
  home := none

theorem lawful_nestedChunk : nestedChunk.catalog.Lawful := by
  constructor <;>
    simp [nestedChunk, ArchiveRow.check_eq_ok_iff, ChunkRow.check_eq_ok_iff, Digest.cell, Cell.isNull,
      Cell.atLeastZero_integer_iff, Cell.aboveZero_integer_iff, Cell.isWord_integer_iff, Cell.equals,
      Cell.same, Cell.le, Cell.rank]

def nestedRows : List ChunkRecord :=
  [⟨Digest.of [97, 98, 99], 0, 3⟩, ⟨Digest.of [98], 1, 1⟩, ⟨Digest.of [100], 3, 1⟩]

theorem chunksOf_nestedChunk : nestedChunk.catalog.chunksOf 1 = .ok nestedRows := by
  have hrows : ChunkRow.byOffset (nestedChunk.catalog.chunkRows 1) = nestedChunk.catalog.chunks := by
    have hall : nestedChunk.catalog.chunkRows 1 = nestedChunk.catalog.chunks := by
      simp [Catalog.chunkRows, nestedChunk, Cell.equals_integer_iff]
    rw [hall, ChunkRow.byOffset]
    apply List.mergeSort_of_pairwise
    simp [nestedChunk, Cell.le, Cell.rank]
  rw [Catalog.chunksOf_eq_ok_iff, hrows]
  exact .cons (ChunkRow.toRecord_eq_ok_iff.mpr ⟨rfl, rfl, rfl⟩)
    (.cons (ChunkRow.toRecord_eq_ok_iff.mpr ⟨rfl, rfl, rfl⟩)
      (.cons (ChunkRow.toRecord_eq_ok_iff.mpr ⟨rfl, rfl, rfl⟩) .nil))

theorem exists_audit_nestedChunk : ∃ report, nestedChunk.audit = .ok report := by
  refine exists_audit ?_ ?_ ?_ ⟨_, rfl⟩
  · intro r hr
    exact Or.inr ⟨⟨1, "a", 5, Digest.of [97, 98, 99, 98, 100]⟩, List.mem_singleton.mp hr⟩
  · intro r hr
    simp only [nestedChunk, List.mem_cons, List.not_mem_nil, or_false] at hr
    rcases hr with rfl | rfl | rfl
    · exact ⟨nestedRows[0], ChunkRow.toRecord_eq_ok_iff.mpr ⟨rfl, rfl, rfl⟩⟩
    · exact ⟨nestedRows[1], ChunkRow.toRecord_eq_ok_iff.mpr ⟨rfl, rfl, rfl⟩⟩
    · exact ⟨nestedRows[2], ChunkRow.toRecord_eq_ok_iff.mpr ⟨rfl, rfl, rfl⟩⟩
  · intro a ha rows hrows
    have hid : a.id = 1 := congrArg ArchiveRow.id (List.mem_singleton.mp ha)
    rw [hid] at hrows
    cases chunksOf_nestedChunk.symm.trans hrows
    decide

theorem coverage_nestedRows : coverage "a" 0 nestedRows = [.overlap "a" 1, .gap "a" 2 3] := rfl

/-- A byte of the first chunk is shown in a gap, since the second chunk has ended before it. -/
theorem gap_shows_coveredByte : ∃ report, nestedChunk.audit = .ok report ∧
    nestedChunk.catalog.chunksOf 1 = .ok nestedRows ∧
    ¬ ∀ p, ShowsGap report.findings "a" p ↔ Uncovered nestedRows p := by
  obtain ⟨report, haudit⟩ := exists_audit_nestedChunk
  obtain ⟨archives, harchives, -⟩ := exists_rows_of_audit haudit
  have hmem : (⟨1, "a", 5, Digest.of [97, 98, 99, 98, 100]⟩ : ArchiveRecord) ∈ archives :=
    (Catalog.mem_completed_iff harchives).mpr List.mem_cons_self
  have hgap : .gap "a" 2 3 ∈ report.findings := by
    rw [mem_findings_iff_mem_coverage haudit (show IsPlacing (.gap "a" 2 3) from trivial)
      lawful_nestedChunk harchives hmem chunksOf_nestedChunk rfl, coverage_nestedRows]
    simp
  refine ⟨report, haudit, chunksOf_nestedChunk, ?_⟩
  intro hall
  have huncovered := (hall 2).mp ⟨2, 3, hgap, by decide, by decide⟩
  exact huncovered.2 nestedRows[0] List.mem_cons_self ⟨by decide, by decide⟩

/-- The gap and the overlap that the second chunk makes. -/
theorem audit_shows_uncovered_nestedChunk : ∃ report, nestedChunk.audit = .ok report ∧
    (∀ p, ShowsGap report.findings "a" p ↔ p = 2) ∧ ∃ offset, .overlap "a" offset ∈ report.findings := by
  obtain ⟨report, haudit⟩ := exists_audit_nestedChunk
  obtain ⟨archives, harchives, hall⟩ := audit_shows_uncovered lawful_nestedChunk haudit
  have hmem : (⟨1, "a", 5, Digest.of [97, 98, 99, 98, 100]⟩ : ArchiveRecord) ∈ archives :=
    (Catalog.mem_completed_iff harchives).mpr List.mem_cons_self
  obtain ⟨rows, hrows, hgap, -, -, hoverlap⟩ := hall _ hmem
  cases chunksOf_nestedChunk.symm.trans hrows
  refine ⟨report, haudit, ?_, hoverlap.mpr ?_⟩
  · intro p
    rw [hgap, ← showsGap_coverage_iff "a" (swept_chunksOf lawful_nestedChunk hrows),
      coverage_nestedRows]
    simp only [ShowsGap, List.mem_cons, List.not_mem_nil, reduceCtorEq, Finding.gap.injEq, true_and,
      false_or, or_false]
    constructor
    · rintro ⟨_, _, ⟨rfl, rfl⟩, hle, hlt⟩
      omega
    · rintro rfl
      exact ⟨2, 3, ⟨rfl, rfl⟩, by decide, by decide⟩
  · refine ⟨nestedRows[0], List.mem_cons_self, nestedRows[1], List.mem_cons_of_mem _ List.mem_cons_self,
      ?_, 1, ⟨by decide, by decide⟩, ⟨by decide, by decide⟩⟩
    intro heq
    exact absurd (congrArg ChunkRecord.offset heq) (by decide)

end Store

end DedupArchive
