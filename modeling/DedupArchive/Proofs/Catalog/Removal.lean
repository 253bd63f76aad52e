/-
  DedupArchive/Proofs/Catalog/Removal.lean
  ========================================
  **A catalog with one archive less.**

  Removing an archive takes its row and its chunks.  The rules stay kept, the
  other archives are found as before and keep their chunks, and a digest is
  referred to afterwards exactly if a chunk of another archive referred to it
  before.
-/
import DedupArchive.Catalog.Transaction
import DedupArchive.Proofs.Catalog.Questions
import Mathlib.Data.List.Find

namespace DedupArchive.Catalog

variable {c : Catalog} {id : Int}

theorem mem_archives_deleteArchive {r : ArchiveRow} :
    r ∈ (c.deleteArchive id).archives ↔ r ∈ c.archives ∧ r.id ≠ id := by
  rw [deleteArchive, List.mem_filter, bne_iff_ne]

theorem mem_chunks_deleteArchive {r : ChunkRow} : r ∈ (c.deleteArchive id).chunks ↔
    r ∈ c.chunks ∧ r.archive.equals (.integer id) = false := by
  rw [deleteArchive, List.mem_filter, Bool.not_eq_true']

theorem Lawful.deleteArchive (h : c.Lawful) (id : Int) : (c.deleteArchive id).Lawful where
  archive_rules r hr := h.archive_rules r (mem_archives_deleteArchive.mp hr).1
  chunk_rules r hr := h.chunk_rules r (mem_chunks_deleteArchive.mp hr).1
  ids := h.ids.filter _
  names := h.names.filter _
  places := h.places.filter _
  archive_words r hr := h.archive_words r (mem_archives_deleteArchive.mp hr).1
  chunk_words r hr := h.chunk_words r (mem_chunks_deleteArchive.mp hr).1

theorem Linked.deleteArchive (h : c.Linked) (id : Int) : (c.deleteArchive id).Linked := by
  intro r hr
  obtain ⟨hr, hother⟩ := mem_chunks_deleteArchive.mp hr
  obtain ⟨a, ha, harchive⟩ := h r hr
  refine ⟨a, mem_archives_deleteArchive.mpr ⟨ha, ?_⟩, harchive⟩
  rintro rfl
  rw [harchive] at hother
  cases hother

section Row

variable {row : ArchiveRow} (hids : (c.archives.map (·.id)).Nodup) (hrow : row ∈ c.archives)

include hids hrow

/-- To remove a row by its id is to remove it by its name. -/
theorem archives_deleteArchive (hnames : (c.archives.map (·.name)).Nodup) :
    (c.deleteArchive row.id).archives = c.archives.filter fun r => r.name ≠ row.name := by
  apply List.filter_congr
  intro r hr
  rw [Bool.eq_iff_iff, bne_iff_ne, decide_eq_true_iff, not_iff_not]
  constructor
  · intro hid
    exact congrArg ArchiveRow.name (List.inj_on_of_nodup_map hids hr hrow hid)
  · intro hname
    exact congrArg ArchiveRow.id (List.inj_on_of_nodup_map hnames hr hrow hname)

/-- What the removed row does not match is found as before. -/
theorem find?_deleteArchive {p : ArchiveRow → Bool} (hp : p row = false) :
    (c.deleteArchive row.id).archives.find? p = c.archives.find? p := by
  unfold deleteArchive
  rw [List.find?_filter]
  apply List.find?_congr
  intro r hr
  by_cases hid : r.id = row.id
  · rw [List.inj_on_of_nodup_map hids hr hrow hid, hp]
    simp only [Bool.false_eq_true, and_false, decide_false]
  · have hkept : (r.id != row.id) = true := bne_iff_ne.mpr hid
    simp only [hkept, true_and, Bool.decide_eq_true]

end Row

/-- Other archives keep their chunks. -/
theorem chunkRows_deleteArchive_of_ne {other : Int} (hother : other ≠ id) :
    (c.deleteArchive id).chunkRows other = c.chunkRows other := by
  rw [chunkRows, chunkRows, Catalog.deleteArchive, List.filter_filter]
  refine List.filter_congr ?_
  intro r _
  cases hequals : r.archive.equals (.integer other) with
  | false => rw [Bool.false_and]
  | true =>
    cases hremoved : r.archive.equals (.integer id) with
    | false => rfl
    | true => exact absurd (Cell.eq_of_equals_integer hequals hremoved) hother

theorem chunksOf_deleteArchive_of_ne {other : Int} (hother : other ≠ id) :
    (c.deleteArchive id).chunksOf other = c.chunksOf other := by
  rw [chunksOf, chunksOf, chunkRows_deleteArchive_of_ne hother]

/-- A digest is referred to elsewhere if it is still referred to afterwards. -/
theorem referencedElsewhere_eq (h : c.Lawful) (d : Digest) (id : Int) :
    c.referencedElsewhere d id = (c.deleteArchive id).isReferenced d := by
  rw [Bool.eq_iff_iff, isReferenced_iff, referencedElsewhere, List.any_eq_true]
  simp only [mem_chunks_deleteArchive, Bool.and_eq_true, Cell.equals_digest_iff,
    Bool.not_eq_true']
  constructor
  · rintro ⟨r, hr, ⟨hdigest, -⟩, hother⟩
    exact ⟨r, ⟨hr, hother⟩, hdigest⟩
  · rintro ⟨r, ⟨hr, hother⟩, hdigest⟩
    exact ⟨r, hr, ⟨hdigest, (ChunkRow.check_eq_ok_iff.mp (h.chunk_rules r hr)).1⟩, hother⟩

theorem mem_digestCells_iff {cell : Cell} :
    cell ∈ ((ChunkRow.byOffset (c.chunkRows id)).map (·.digest)).mergeSort Cell.le ↔
      ∃ r ∈ c.chunkRows id, r.digest = cell := by
  rw [List.mem_mergeSort, List.mem_map]
  simp only [ChunkRow.byOffset, List.mem_mergeSort]

/-- The digests of an archive are those that its chunks refer to. -/
theorem mem_archiveDigests_iff {digests : List Digest} (h : c.archiveDigests id = .ok digests)
    {d : Digest} : d ∈ digests ↔ ∃ r ∈ c.chunkRows id, r.digest = d.cell := by
  constructor
  · intro hd
    obtain ⟨cell, hcell, hread⟩ := exists_row_of_mem h hd
    rw [Cell.toDigest_eq_ok_iff] at hread
    rw [hread] at hcell
    exact mem_digestCells_iff.mp (mem_of_mem_firstOfRuns hcell)
  · intro hr
    obtain ⟨kept, hkept, hsame⟩ :=
      exists_same_of_mem_firstOfRuns Cell.same_refl (mem_digestCells_iff.mpr hr)
    obtain ⟨d', hd', hread⟩ := exists_answer_of_mem h hkept
    rw [Digest.cell, Cell.same_blob_iff] at hsame
    rw [Cell.toDigest_eq_ok_iff, hsame] at hread
    cases Cell.digest_cell_inj.mp hread
    exact hd'

theorem exists_archiveDigests (h : ∀ r ∈ c.chunkRows id, ∃ d : Digest, r.digest = d.cell) :
    ∃ digests, c.archiveDigests id = .ok digests := by
  apply exists_mapM_ok
  intro cell hcell
  obtain ⟨r, hr, rfl⟩ := mem_digestCells_iff.mp (mem_of_mem_firstOfRuns hcell)
  obtain ⟨d, hd⟩ := h r hr
  exact ⟨d, Cell.toDigest_eq_ok_iff.mpr hd⟩

/-- The digests of an archive whose chunks can be read. -/
theorem archiveDigests_of_chunksOf {rows : List ChunkRecord} (h : c.chunksOf id = .ok rows) :
    ∃ digests, c.archiveDigests id = .ok digests ∧
      ∀ d, d ∈ digests ↔ ∃ row ∈ rows, row.digest = d := by
  have hcells (r : ChunkRow) (hr : r ∈ c.chunkRows id) : ∃ d : Digest, r.digest = d.cell := by
    rw [mem_chunkRows] at hr
    obtain ⟨row, -, hread⟩ := exists_chunkRecord h hr.1 hr.2
    exact ⟨row.digest, (ChunkRow.toRecord_eq_ok_iff.mp hread).1⟩
  obtain ⟨digests, hdigests⟩ := exists_archiveDigests hcells
  refine ⟨digests, hdigests, ?_⟩
  intro d
  rw [mem_archiveDigests_iff hdigests]
  constructor
  · rintro ⟨r, hr, hdigest⟩
    rw [mem_chunkRows] at hr
    obtain ⟨row, hrow, hread⟩ := exists_chunkRecord h hr.1 hr.2
    rw [(ChunkRow.toRecord_eq_ok_iff.mp hread).1, Cell.digest_cell_inj] at hdigest
    exact ⟨row, hrow, hdigest⟩
  · rintro ⟨row, hrow, rfl⟩
    obtain ⟨r, hr, harchive, hread⟩ := exists_chunkRow h hrow
    exact ⟨r, mem_chunkRows.mpr ⟨hr, harchive⟩, (ChunkRow.toRecord_eq_ok_iff.mp hread).1⟩

end DedupArchive.Catalog
