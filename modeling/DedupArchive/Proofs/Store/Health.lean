/-
  DedupArchive/Proofs/Store/Health.lean
  =====================================
  **Healthy stores, seen by an audit and seen from inside.**

  From outside a store is healthy when its tables keep the rules, its blobs are
  what their digests say, and an audit finds nothing but blobs that are not in
  use.  From inside it is sound when every row of the archive table is a completed
  archive that the store holds.  The two are the same: the first is what one
  wants to know, the second is what an operation can be seen to preserve.
-/
import DedupArchive.Proofs.Store.Agreement
import DedupArchive.Proofs.Store.Deleting
import DedupArchive.Proofs.Store.Saving

namespace DedupArchive.Store

variable {σ : Type} [BlobStore σ] [FaithfulBlobs σ]

/-- Whether a blob is there that no chunk refers to. -/
def Unreferenced (s : Store σ) (d : Digest) : Prop :=
  (BlobStore.find s.blobs d).isSome = true ∧ s.catalog.isReferenced d = false

structure Healthy (s : Store σ) : Prop where
  lawful : s.catalog.Lawful
  linked : s.catalog.Linked
  ready : FaithfulBlobs.Ready s.blobs
  honest : ∀ d data, BlobStore.find s.blobs d = some data → Digest.of data = d
  audited : ∃ report, s.audit = .ok report ∧ ∀ f ∈ report.findings, ∃ d, f = .orphanBlob d

structure Sound (s : Store σ) : Prop where
  lawful : s.catalog.Lawful
  linked : s.catalog.Linked
  ready : FaithfulBlobs.Ready s.blobs
  honest : ∀ d data, BlobStore.find s.blobs d = some data → Digest.of data = d
  whole : ∀ r ∈ s.catalog.archives, ∃ a : ArchiveRecord, r = a.row ∧
    ∃ content, s.catalog.Holds (BlobStore.find s.blobs) a content

/-! ### What an audit finds in a sound store -/

namespace Sound

variable {s : Store σ} (h : s.Sound)

include h

/-- Every chunk is one of an archive that is held. -/
theorem exists_tile {r : ChunkRow} (hr : r ∈ s.catalog.chunks) :
    ∃ row data, r.toRecord = .ok row ∧ BlobStore.find s.blobs row.digest = some data ∧
      data.length = row.length := by
  obtain ⟨r', hr', harchive⟩ := h.linked r hr
  obtain ⟨a, rfl, content, ⟨rows, hrows, htiles⟩, -⟩ := h.whole r' hr'
  obtain ⟨row, hrow, hread⟩ := Catalog.exists_chunkRecord hrows hr harchive
  obtain ⟨data, hfound, hlength⟩ := htiles.exists_blob hrow
  exact ⟨row, data, hread, hfound, hlength⟩

theorem length_lt {a : ArchiveRecord} (ha : a.row ∈ s.catalog.archives) : a.length < 2 ^ 63 := by
  have hword := h.lawful.archive_words a.row ha
  rw [ArchiveRecord.row, Cell.isWord_integer_iff] at hword
  omega

theorem exists_report : ∃ report, s.audit = .ok report := by
  obtain ⟨stored, hstored, -⟩ := FaithfulBlobs.digests_spec h.ready
  refine exists_audit ?_ ?_ ?_ ⟨stored, hstored⟩
  · intro r hr
    obtain ⟨a, hrow, -⟩ := h.whole r hr
    exact Or.inr ⟨a, hrow⟩
  · intro r hr
    obtain ⟨row, data, hread, -⟩ := h.exists_tile hr
    exact ⟨row, hread⟩
  · intro a ha rows hrows
    obtain ⟨a', hrow, content, ⟨rows', hrows', htiles⟩, -, hlength⟩ := h.whole a.row ha
    cases ArchiveRecord.row_inj hrow
    rw [hrows, Except.ok.injEq] at hrows'
    subst hrows'
    rw [htiles.sum_lengths, hlength]
    exact h.length_lt ha

/-- A digest that a chunk refers to is among those that an audit takes for referred to. -/
theorem isReferenced_iff_mem {refs : List (Digest × Nat)} (hrefs : s.catalog.referenced = .ok refs)
    (d : Digest) : s.catalog.isReferenced d = true ↔ ∃ n, (d, n) ∈ refs := by
  rw [Catalog.isReferenced_iff]
  constructor
  · rintro ⟨r, hr, hdigest⟩
    obtain ⟨row, data, hread, -⟩ := h.exists_tile hr
    rw [(ChunkRow.toRecord_eq_ok_iff.mp hread).1, Cell.digest_cell_inj] at hdigest
    subst hdigest
    exact ⟨row.length, Catalog.mem_referenced hrefs hr hread⟩
  · rintro ⟨n, hmem⟩
    obtain ⟨r, hr, hdigest, -⟩ := Catalog.exists_chunk_of_mem_referenced hrefs hmem
    exact ⟨r, hr, hdigest⟩

theorem not_blames {report : AuditReport} (haudit : s.audit = .ok report) {f : Finding}
    (hf : f ∈ report.findings) {a : ArchiveRecord} (ha : a.row ∈ s.catalog.archives) :
    ¬ f.Blames a.name := by
  obtain ⟨a', hrow, content, hholds⟩ := h.whole a.row ha
  cases ArchiveRecord.row_inj hrow
  obtain ⟨rows, hrows, -⟩ := hholds.tiled
  exact ((exists_holds_iff h.lawful haudit ha hrows).mp ⟨content, hholds⟩).1 f hf

/-- Nothing is wrong with a blob at a length at which it is referred to. -/
theorem checkBlob_eq_nil {refs : List (Digest × Nat)} (hrefs : s.catalog.referenced = .ok refs)
    {d : Digest} {n : Nat} (hmem : (d, n) ∈ refs) : s.checkBlob d n = [] := by
  obtain ⟨r, hr, hdigest, hlength⟩ := Catalog.exists_chunk_of_mem_referenced hrefs hmem
  obtain ⟨row, data, hread, hfound, hsize⟩ := h.exists_tile hr
  obtain ⟨hdigest', -, hlength'⟩ := ChunkRow.toRecord_eq_ok_iff.mp hread
  rw [hdigest, Cell.digest_cell_inj] at hdigest'
  rw [hlength, Cell.integer.injEq, Int.ofNat_inj] at hlength'
  subst hdigest' hlength'
  exact checkBlob_eq_nil_iff.mpr ⟨data, hfound, hsize, h.honest row.digest data hfound⟩

/-- **An audit of a sound store finds the blobs that are not in use, and nothing
    else.** -/
theorem mem_findings_iff {report : AuditReport} (haudit : s.audit = .ok report) {f : Finding} :
    f ∈ report.findings ↔ ∃ d, f = .orphanBlob d ∧ s.Unreferenced d := by
  have hblames {a : ArchiveRecord} (ha : a.row ∈ s.catalog.archives) (hf : f ∈ report.findings) :=
    h.not_blames haudit hf ha
  obtain ⟨archives, unfinished, uncovered, orphans, damaged, blobs, mismatched, mislength,
    harchives, hunfinished, huncovered, horphans, hdamaged, hmismatched, hmislength, rfl⟩ :=
    audit_eq_ok_iff.mp haudit
  constructor
  · intro hf
    have hreported := hf
    simp only [List.mem_append] at hf
    rcases hf with ((((hf | hf) | hf) | hf) | hf) | hf
    · have hnames : s.findUnfinished = .ok [] := by
        rw [findUnfinished, Catalog.unfinished_eq_nil fun r hr => ?_]
        · rfl
        · obtain ⟨a, hrow, -⟩ := h.whole r hr
          exact ⟨a, hrow⟩
      cases hunfinished.symm.trans hnames
      cases hf
    · obtain ⟨a, ha, rows, -, hf⟩ := (mem_findEach_iff huncovered).mp hf
      rw [Catalog.mem_completed_iff harchives] at ha
      exact absurd (blames_of_mem_coverage hf) (hblames ha hreported)
    · obtain ⟨refs, stored, hrefs, hstored, d, hd, hnone, rfl⟩ := (mem_findOrphans_iff horphans).mp hf
      obtain ⟨stored', hstored', hspec⟩ := FaithfulBlobs.digests_spec h.ready
      cases hstored.symm.trans hstored'
      refine ⟨d, rfl, (hspec d).mp hd, ?_⟩
      rw [← Bool.not_eq_true, h.isReferenced_iff_mem hrefs]
      rintro ⟨n, hmem⟩
      exact hnone n hmem
    · obtain ⟨refs, hrefs, ⟨d, n⟩, hmem, hf⟩ := (mem_findDamaged_iff hdamaged).mp hf
      rw [h.checkBlob_eq_nil hrefs hmem] at hf
      cases hf
    · obtain ⟨a, ha, rows, -, hf⟩ := (mem_findEach_iff hmismatched).mp hf
      rw [Catalog.mem_completed_iff harchives] at ha
      exact absurd (blames_of_mem_digestFindings hf) (hblames ha hreported)
    · obtain ⟨totals, htotals, t, ht, -, rfl⟩ := (mem_findMislength_iff hmislength).mp hf
      obtain ⟨r, hr, hname, -⟩ := Catalog.exists_row_of_mem_totals htotals ht
      obtain ⟨a, rfl, -⟩ := h.whole r hr
      exact absurd (Cell.text.inj hname).symm (hblames hr hreported)
  · rintro ⟨d, rfl, hthere, hunused⟩
    obtain ⟨refs, hrefs, -⟩ := bind_eq_ok_iff.mp hdamaged
    rw [readCatalog_eq_ok_iff] at hrefs
    obtain ⟨stored, hstored, hspec⟩ := FaithfulBlobs.digests_spec h.ready
    have hnone (n : Nat) : (d, n) ∉ refs := by
      intro hmem
      rw [(h.isReferenced_iff_mem hrefs d).mpr ⟨n, hmem⟩] at hunused
      cases hunused
    have hf : Finding.orphanBlob d ∈ orphans := (mem_findOrphans_iff horphans).mpr
      ⟨refs, stored, hrefs, hstored, d, (hspec d).mpr hthere, hnone, rfl⟩
    simp only [List.mem_append, hf, or_true, true_or]

/-- If every blob is in use, the blobs are exactly those that are referred to. -/
theorem exists_digests_of_used (hused : ∀ d, ¬ s.Unreferenced d) :
    ∃ stored, BlobStore.digests s.blobs = .ok stored ∧
      ∀ d, d ∈ stored ↔ s.catalog.isReferenced d = true := by
  obtain ⟨stored, hstored, hspec⟩ := FaithfulBlobs.digests_spec h.ready
  refine ⟨stored, hstored, ?_⟩
  intro d
  rw [hspec]
  constructor
  · intro hthere
    cases hreferenced : s.catalog.isReferenced d with
    | true => rfl
    | false => exact absurd ⟨hthere, hreferenced⟩ (hused d)
  · intro hreferenced
    obtain ⟨r, hr, hdigest⟩ := Catalog.isReferenced_iff.mp hreferenced
    obtain ⟨row, data, hread, hfound, -⟩ := h.exists_tile hr
    rw [(ChunkRow.toRecord_eq_ok_iff.mp hread).1, Cell.digest_cell_inj] at hdigest
    rw [← hdigest, hfound]
    rfl

theorem healthy : s.Healthy where
  lawful := h.lawful
  linked := h.linked
  ready := h.ready
  honest := h.honest
  audited := by
    obtain ⟨report, haudit⟩ := h.exists_report
    refine ⟨report, haudit, ?_⟩
    intro f hf
    obtain ⟨d, heq, -⟩ := (h.mem_findings_iff haudit).mp hf
    exact ⟨d, heq⟩

end Sound

omit [FaithfulBlobs σ] in
/-- Every archive is complete unless one is reported as unfinished. -/
theorem isComplete_of_audit {s : Store σ} {report : AuditReport} (haudit : s.audit = .ok report)
    (hnone : ∀ name, .unfinishedArchive name ∉ report.findings) {r : ArchiveRow}
    (hr : r ∈ s.catalog.archives) : r.isComplete = true := by
  obtain ⟨archives, unfinished, uncovered, orphans, damaged, blobs, mismatched, mislength,
    -, hunfinished, -, -, -, -, -, rfl⟩ := audit_eq_ok_iff.mp haudit
  obtain ⟨names, hnames, heq⟩ := bind_eq_ok_iff.mp hunfinished
  cases heq
  rw [readCatalog_eq_ok_iff] at hnames
  cases names with
  | nil => exact Catalog.isComplete_of_unfinished_nil hnames hr
  | cons name rest =>
    refine absurd ?_ (hnone name)
    simp only [List.map_cons, List.mem_append, List.mem_cons, true_or]

omit [FaithfulBlobs σ] in
/-- If an audit finds only blobs that are not in use, those in use are what their
    digests say. -/
theorem digest_of_audit {s : Store σ} {report : AuditReport} (haudit : s.audit = .ok report)
    (horphans : ∀ f ∈ report.findings, ∃ d, f = .orphanBlob d) {d : Digest}
    (hused : s.catalog.isReferenced d = true) {data : Bytes}
    (hfound : BlobStore.find s.blobs d = some data) : Digest.of data = d := by
  obtain ⟨refs, hrefs, hchecked⟩ := exists_referenced_of_audit haudit
  obtain ⟨r, hr, hdigest⟩ := Catalog.isReferenced_iff.mp hused
  obtain ⟨n, hmem, -⟩ := Catalog.exists_mem_referenced hrefs hr hdigest
  have hnone : s.checkBlob d n = [] := by
    rw [List.eq_nil_iff_forall_not_mem]
    intro f hf
    obtain ⟨d', rfl⟩ := horphans f (hchecked _ hmem f hf)
    rcases mem_checkBlob_iff.mp hf with ⟨e, -, heq⟩ | ⟨data, -, ⟨-, heq⟩ | ⟨-, -, heq⟩⟩
    · cases heq
    · cases heq
    · cases heq
  obtain ⟨found, hfound', -, hright⟩ := checkBlob_eq_nil_iff.mp hnone
  rw [hfound, Option.some.injEq] at hfound'
  rw [hfound', hright]

/-- What an audit finds nothing wrong with is held. -/
theorem Healthy.sound {s : Store σ} (h : s.Healthy) : s.Sound where
  lawful := h.lawful
  linked := h.linked
  ready := h.ready
  honest := h.honest
  whole := by
    obtain ⟨report, haudit, horphans⟩ := h.audited
    obtain ⟨archives, harchives, hread⟩ := exists_rows_of_audit haudit
    intro r hr
    have hcomplete := isComplete_of_audit haudit (fun name hf => nomatch horphans _ hf) hr
    obtain ⟨a, ha, rfl⟩ := Catalog.exists_record_of_complete harchives hr hcomplete
    obtain ⟨rows, hrows⟩ := hread a ha
    refine ⟨a, rfl, (exists_holds_iff h.lawful haudit hr hrows).mpr ⟨?_, ?_⟩⟩
    · intro f hf
      obtain ⟨d, rfl⟩ := horphans f hf
      exact id
    · intro row _ f hf
      obtain ⟨d, rfl⟩ := horphans f hf
      exact id

end DedupArchive.Store
