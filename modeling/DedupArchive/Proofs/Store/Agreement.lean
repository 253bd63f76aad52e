/-
  DedupArchive/Proofs/Store/Agreement.lean
  ========================================
  **An audit and a load agree.**

  An audit goes over a store several times, each time with another count in mind;
  a load goes once along the rows of one archive.  Both come down to the same
  thing: an archive is held if no finding blames it and none hits a chunk of it,
  and what is held can be loaded.
-/
import DedupArchive.Proofs.Store.Findings

namespace DedupArchive.Store

variable {σ : Type} [BlobStore σ] {s : Store σ}

/-! ### Blame and hits -/

section Blame

variable (hlawful : s.catalog.Lawful) {archives : List ArchiveRecord}
  (harchives : s.catalog.completed = .ok archives) {a : ArchiveRecord}
  (ha : a.row ∈ s.catalog.archives) {rows : List ChunkRecord}
  (hrows : s.catalog.chunksOf a.id = .ok rows) {found : List Finding}

include hlawful ha hrows

omit [BlobStore σ] in
/-- A completed archive of the same name is the same, and has the same rows. -/
theorem eq_of_same_name {a' : ArchiveRecord} (ha' : a'.row ∈ s.catalog.archives)
    (hname : a'.name = a.name) {rows' : List ChunkRecord}
    (hrows' : s.catalog.chunksOf a'.id = .ok rows') : a' = a ∧ rows' = rows := by
  have heq := hlawful.eq_of_record_name ha' ha hname
  subst heq
  rw [hrows, Except.ok.injEq] at hrows'
  exact ⟨rfl, hrows'.symm⟩

omit [BlobStore σ] in
theorem exists_blame_of_mislength_iff (h : s.findMislength = .ok found) :
    (∃ f ∈ found, f.Blames a.name) ↔ (rows.map (·.length)).sum ≠ a.length := by
  have htotal {t : ChunkTotal} {r : ArchiveRow} (hname : r.name = .text a.name)
      (hr : r ∈ s.catalog.archives) (hlength : r.length = .integer t.recorded)
      (hsum : s.catalog.sumOfChunks r.id = .ok (.integer t.summed)) :
      t.recorded = a.length ∧ t.summed = (rows.map (·.length)).sum := by
    have hrow : r = a.row := hlawful.eq_of_name hr ha hname
    subst hrow
    change s.catalog.sumOfChunks a.id = _ at hsum
    rw [Catalog.sumOfChunks_eq hrows] at hsum
    split at hsum
    · rw [Except.ok.injEq, Cell.integer.injEq] at hsum
      exact ⟨(Int.ofNat_inj.mp (Cell.integer.inj hlength)).symm, (Int.ofNat_inj.mp hsum).symm⟩
    · cases hsum
  constructor
  · rintro ⟨f, hf, hblames⟩
    obtain ⟨totals, htotals, t, ht, hne, rfl⟩ := (mem_findMislength_iff h).mp hf
    obtain ⟨r, hr, hname, hrecorded, hsum⟩ := Catalog.exists_row_of_mem_totals htotals ht
    have hsame : r.name = .text a.name := hname.trans (congrArg Cell.text hblames)
    obtain ⟨hrecord, hsummed⟩ := htotal hsame hr hrecorded hsum
    rw [← hrecord, ← hsummed]
    exact hne.symm
  · intro hne
    obtain ⟨totals, htotals, -⟩ := bind_eq_ok_iff.mp h
    rw [readCatalog_eq_ok_iff] at htotals
    obtain ⟨t, ht, hname, hrecorded, hsum⟩ := Catalog.exists_total_of_mem htotals ha rfl
    obtain ⟨hrecord, hsummed⟩ := htotal rfl ha hrecorded hsum
    rw [← hrecord, ← hsummed] at hne
    have hsame : t.name = a.name := (Cell.text.inj hname).symm
    exact ⟨_, (mem_findMislength_iff h).mpr ⟨totals, htotals, t, ht, hne.symm, rfl⟩, hsame⟩

include harchives

omit [BlobStore σ] in
/-- A step that looks at each archive, and whose findings blame that archive,
    blames an archive if it finds something there. -/
theorem exists_blame_of_findEach_iff {look : ArchiveRecord → List ChunkRecord → List Finding}
    (hlook : ∀ {a : ArchiveRecord} {rows : List ChunkRecord} {f : Finding},
      f ∈ look a rows → f.Blames a.name)
    (h : s.findEach look archives = .ok found) :
    (∃ f ∈ found, f.Blames a.name) ↔ look a rows ≠ [] := by
  constructor
  · rintro ⟨f, hf, hblames⟩
    obtain ⟨a', ha', rows', hrows', hf⟩ := (mem_findEach_iff h).mp hf
    rw [Catalog.mem_completed_iff harchives] at ha'
    obtain ⟨rfl, rfl⟩ := eq_of_same_name hlawful ha hrows ha' ((hlook hf).unique hblames) hrows'
    exact List.ne_nil_of_mem hf
  · intro hne
    obtain ⟨f, hf⟩ := List.exists_mem_of_ne_nil _ hne
    have hmem : a ∈ archives := (Catalog.mem_completed_iff harchives).mpr ha
    exact ⟨f, (mem_findEach_iff h).mpr ⟨a, hmem, rows, hrows, hf⟩, hlook hf⟩

end Blame

section Report

variable {report : AuditReport} (hlawful : s.catalog.Lawful) (haudit : s.audit = .ok report)
  {a : ArchiveRecord} (ha : a.row ∈ s.catalog.archives) {rows : List ChunkRecord}
  (hrows : s.catalog.chunksOf a.id = .ok rows)

include haudit

/-- A chunk is hit unless its blob is there and as long as recorded. -/
theorem exists_hit_iff {r : ChunkRow} (hr : r ∈ s.catalog.chunks) {row : ChunkRecord}
    (hread : r.toRecord = .ok row) : (∃ f ∈ report.findings, f.Hits row) ↔
      ¬ ∃ data, BlobStore.find s.blobs row.digest = some data ∧ data.length = row.length := by
  constructor
  · rintro ⟨f, hf, hhits⟩ ⟨data, hfound, hlength⟩
    rcases finding_cases haudit hf with ⟨name, rfl⟩ | ⟨name, hblames⟩ | ⟨d, rfl⟩ |
      ⟨refs, -, ⟨d, n⟩, -, hf⟩
    · exact hhits
    · exact hblames.not_hits hhits
    · exact hhits
    · obtain ⟨rfl, hdata⟩ := exists_hit_of_checkBlob_iff.mp ⟨f, hf, hhits⟩
      obtain ⟨hne, rfl⟩ := hdata data hfound
      exact hne hlength
  · intro hnone
    obtain ⟨refs, hrefs, hchecked⟩ := exists_referenced_of_audit haudit
    have hcheck : ∃ f ∈ s.checkBlob row.digest row.length, f.Hits row := by
      rw [exists_hit_of_checkBlob_iff]
      exact ⟨rfl, fun data hfound => ⟨fun hlength => hnone ⟨data, hfound, hlength⟩, rfl⟩⟩
    obtain ⟨f, hf, hhits⟩ := hcheck
    exact ⟨f, hchecked _ (Catalog.mem_referenced hrefs hr hread) f hf, hhits⟩

include hlawful ha hrows

/-- An archive is blamed unless its chunks cover it, make up its digest, and
    have its length in sum. -/
theorem exists_blame_iff : (∃ f ∈ report.findings, f.Blames a.name) ↔
    coverage a.name 0 rows ≠ [] ∨ s.reassemble a.name .start rows ≠ .ok a.digest ∨
      (rows.map (·.length)).sum ≠ a.length := by
  obtain ⟨archives, unfinished, uncovered, orphans, damaged, blobs, mismatched, mislength,
    harchives, hunfinished, huncovered, horphans, hdamaged, hmismatched, hmislength, rfl⟩ :=
    audit_eq_ok_iff.mp haudit
  rw [ne_eq (s.reassemble _ _ _), ← digestFindings_eq_nil_iff,
    ← exists_blame_of_findEach_iff hlawful harchives ha hrows blames_of_mem_coverage huncovered,
    ← ne_eq, ← exists_blame_of_findEach_iff hlawful harchives ha hrows blames_of_mem_digestFindings
      hmismatched, ← exists_blame_of_mislength_iff hlawful ha hrows hmislength]
  constructor
  · rintro ⟨f, hf, hblames⟩
    simp only [List.mem_append] at hf
    rcases hf with ((((hf | hf) | hf) | hf) | hf) | hf
    · obtain ⟨name, rfl⟩ := eq_of_mem_findUnfinished hunfinished hf
      exact hblames.elim
    · exact Or.inl ⟨f, hf, hblames⟩
    · obtain ⟨d, rfl⟩ := eq_of_mem_findOrphans horphans hf
      exact hblames.elim
    · obtain ⟨refs, -, ref, -, hf⟩ := (mem_findDamaged_iff hdamaged).mp hf
      exact absurd hblames (not_blames_of_mem_checkBlob hf _)
    · exact Or.inr (Or.inl ⟨f, hf, hblames⟩)
    · exact Or.inr (Or.inr ⟨f, hf, hblames⟩)
  · rintro (⟨f, hf, hblames⟩ | ⟨f, hf, hblames⟩ | ⟨f, hf, hblames⟩)
    · refine ⟨f, ?_, hblames⟩
      simp only [List.mem_append, hf, or_true, true_or]
    · refine ⟨f, ?_, hblames⟩
      simp only [List.mem_append, hf, or_true, true_or]
    · refine ⟨f, ?_, hblames⟩
      simp only [List.mem_append, hf, or_true]

/-- An archive is held when no finding blames it and none hits a chunk of it. -/
theorem exists_holds_iff :
    (∃ content, s.catalog.Holds (BlobStore.find s.blobs) a content) ↔
      (∀ f ∈ report.findings, ¬ f.Blames a.name) ∧
        ∀ row ∈ rows, ∀ f ∈ report.findings, ¬ f.Hits row := by
  have hblame := exists_blame_iff hlawful haudit ha hrows
  have hbounds : ∀ row ∈ rows, row.offset < 2 ^ 63 ∧ row.length < 2 ^ 63 := fun row hrow =>
    have h := Catalog.Lawful.chunk_bounds hrows hlawful hrow
    ⟨h.1, h.2.2⟩
  constructor
  · rintro ⟨content, ⟨rows', hrows', htiles⟩, hdigest, hlength⟩
    rw [hrows, Except.ok.injEq] at hrows'
    subst hrows'
    constructor
    · intro f hf hblames
      rcases hblame.mp ⟨f, hf, hblames⟩ with hwrong | hwrong | hwrong
      · exact hwrong (htiles.coverage_eq_nil a.name hbounds)
      · refine hwrong ?_
        rw [htiles.reassemble a.name, Digest.Running.digest_start_feed, hdigest]
      · exact hwrong (htiles.sum_lengths.trans hlength)
    · intro row hrow f hf hhits
      obtain ⟨r, hr, -, hread⟩ := Catalog.exists_chunkRow hrows hrow
      exact (exists_hit_iff haudit hr hread).mp ⟨f, hf, hhits⟩ (htiles.exists_blob hrow)
  · rintro ⟨hblameless, hunhit⟩
    have hright := mt hblame.mpr fun ⟨f, hf, hblames⟩ => hblameless f hf hblames
    simp only [not_or, not_not] at hright
    obtain ⟨hcovered, hdigest, hlength⟩ := hright
    have hblobs : ∀ row ∈ rows, ∃ data,
        BlobStore.find s.blobs row.digest = some data ∧ data.length = row.length := by
      intro row hrow
      obtain ⟨r, hr, -, hread⟩ := Catalog.exists_chunkRow hrows hrow
      by_contra hnone
      obtain ⟨f, hf, hhits⟩ := (exists_hit_iff haudit hr hread).mpr hnone
      exact hunhit row hrow f hf hhits
    obtain ⟨content, htiles⟩ := Tiles.of_coverage a.name hcovered hbounds hblobs
    refine ⟨content, ⟨rows, hrows, htiles⟩, ?_, htiles.sum_lengths.symm.trans hlength⟩
    rw [htiles.reassemble a.name, Digest.Running.digest_start_feed, Except.ok.injEq] at hdigest
    exact hdigest

end Report

/-- An audit that is answered has read the rows of every completed archive. -/
theorem exists_rows_of_audit {report : AuditReport} (haudit : s.audit = .ok report) :
    ∃ archives, s.catalog.completed = .ok archives ∧
      ∀ a ∈ archives, ∃ rows, s.catalog.chunksOf a.id = .ok rows := by
  obtain ⟨archives, unfinished, uncovered, orphans, damaged, blobs, mismatched, mislength,
    harchives, -, huncovered, -⟩ := audit_eq_ok_iff.mp haudit
  exact ⟨archives, harchives, exists_findEach_iff.mp ⟨uncovered, huncovered⟩⟩

/-- **Auditing and loading agree.**  Whatever the blobs hold, and whatever rows the
    rules of the tables let through (no edit gets around them), if an audit reports
    at all, then each completed archive can be loaded exactly when the report
    neither blames it nor hits a chunk of it.  So after a clean report everything
    can be loaded. -/
theorem load_iff_unblamed {report : AuditReport} (hlawful : s.catalog.Lawful)
    (haudit : s.audit = .ok report) :
    ∃ archives, s.catalog.completed = .ok archives ∧ ∀ a ∈ archives, ∃ rows,
      s.catalog.chunksOf a.id = .ok rows ∧ ∀ sink : Sink, sink.TakesAll →
        ((∃ record, (s.load a.name sink).1 = .ok record) ↔
          (∀ f ∈ report.findings, ¬ f.Blames a.name) ∧
            ∀ row ∈ rows, ∀ f ∈ report.findings, ¬ f.Hits row) ∧
        (report.isClean = true → ∃ record, (s.load a.name sink).1 = .ok record) := by
  obtain ⟨archives, harchives, hread⟩ := exists_rows_of_audit haudit
  refine ⟨archives, harchives, ?_⟩
  intro a ha
  obtain ⟨rows, hrows⟩ := hread a ha
  refine ⟨rows, hrows, ?_⟩
  intro sink hsink
  rw [Catalog.mem_completed_iff harchives] at ha
  have hinfo := info_of_mem hlawful ha
  have hload : (∃ record, (s.load a.name sink).1 = .ok record) ↔
      (∀ f ∈ report.findings, ¬ f.Blames a.name) ∧
        ∀ row ∈ rows, ∀ f ∈ report.findings, ¬ f.Hits row := by
    rw [← exists_holds_iff hlawful haudit ha hrows]
    constructor
    · rintro ⟨record, h⟩
      exact holds_of_load hinfo h
    · rintro ⟨content, hholds⟩
      obtain ⟨sink', h, -⟩ := load_of_holds hinfo hholds hsink
      exact ⟨a, by rw [h]⟩
  refine ⟨hload, ?_⟩
  intro hclean
  rw [AuditReport.isClean, List.isEmpty_iff] at hclean
  rw [hload, hclean]
  exact ⟨nofun, fun row hrow => nofun⟩

def lostBlob : Store MemoryBlobs where
  catalog.archives := [⟨1, .text "a", .integer 1, (Digest.of [7]).cell⟩]
  catalog.chunks := [⟨.integer 1, (Digest.of [7]).cell, .integer 0, .integer 1⟩]
  blobs := .empty
  params := .standard
  home := none

theorem lawful_lostBlob : lostBlob.catalog.Lawful := by
  constructor <;>
    simp [lostBlob, ArchiveRow.check_eq_ok_iff, ChunkRow.check_eq_ok_iff, Digest.cell, Cell.isNull,
      Cell.atLeastZero_integer_iff, Cell.aboveZero_integer_iff, Cell.isWord_integer_iff]

theorem chunksOf_lostBlob : lostBlob.catalog.chunksOf 1 = .ok [⟨Digest.of [7], 0, 1⟩] := by
  have hrows : ChunkRow.byOffset (lostBlob.catalog.chunkRows 1) = lostBlob.catalog.chunks := by
    simp [ChunkRow.byOffset, Catalog.chunkRows, lostBlob, Cell.equals_integer_iff]
  rw [Catalog.chunksOf_eq_ok_iff, hrows]
  exact .cons (ChunkRow.toRecord_eq_ok_iff.mpr ⟨rfl, rfl, rfl⟩) .nil

theorem exists_audit_lostBlob : ∃ report, lostBlob.audit = .ok report := by
  refine exists_audit ?_ ?_ ?_ ⟨_, rfl⟩
  · intro r hr
    exact Or.inr ⟨⟨1, "a", 1, Digest.of [7]⟩, List.mem_singleton.mp hr⟩
  · intro r hr
    rw [List.mem_singleton.mp hr]
    exact ⟨⟨Digest.of [7], 0, 1⟩, ChunkRow.toRecord_eq_ok_iff.mpr ⟨rfl, rfl, rfl⟩⟩
  · intro a ha rows hrows
    have hid : a.id = 1 := congrArg ArchiveRow.id (List.mem_singleton.mp ha)
    rw [hid] at hrows
    cases chunksOf_lostBlob.symm.trans hrows
    decide

/-- What the lost blob breaks is reported, and cannot be loaded. -/
theorem load_iff_unblamed_lostBlob : ∃ report, lostBlob.audit = .ok report ∧
    report.isClean = false ∧ ¬ ∃ record, (lostBlob.load "a" .unlimited).1 = .ok record := by
  obtain ⟨report, haudit⟩ := exists_audit_lostBlob
  obtain ⟨archives, harchives, hload⟩ := load_iff_unblamed lawful_lostBlob haudit
  have hmem : (⟨1, "a", 1, Digest.of [7]⟩ : ArchiveRecord) ∈ archives :=
    (Catalog.mem_completed_iff harchives).mpr List.mem_cons_self
  obtain ⟨rows, hrows, hload⟩ := hload _ hmem
  cases chunksOf_lostBlob.symm.trans hrows
  obtain ⟨-, hclean⟩ := hload .unlimited Sink.takesAll_unlimited
  have hfails : ¬ ∃ record, (lostBlob.load "a" .unlimited).1 = .ok record := by
    rintro ⟨record, h⟩
    have hinfo := info_of_mem lawful_lostBlob ((Catalog.mem_completed_iff harchives).mp hmem)
    obtain ⟨content, ⟨rows, hrows, htiles⟩, -⟩ := holds_of_load hinfo h
    cases chunksOf_lostBlob.symm.trans hrows
    obtain ⟨data, hfound, -⟩ := htiles.exists_blob List.mem_cons_self
    rw [show lostBlob.blobs = .empty from rfl, MemoryBlobs.find_empty] at hfound
    cases hfound
  refine ⟨report, haudit, ?_, hfails⟩
  cases hreport : report.isClean with
  | false => rfl
  | true => exact absurd (hclean hreport) hfails

end DedupArchive.Store
