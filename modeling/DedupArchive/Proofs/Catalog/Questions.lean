/-
  DedupArchive/Proofs/Catalog/Questions.lean
  ==========================================
  **What the answers to whole questions say about the rows.**

  The questions sort rows, drop repetitions and add up lengths before they read.
  Here each of them is said as membership in both directions: a row that a
  question covers shows in the answer, and what the answer shows is a row.
-/
import DedupArchive.Proofs.Ascending
import DedupArchive.Proofs.Catalog.Reading

namespace DedupArchive

/-! ### Archives -/

namespace ArchiveRow

@[simp] theorem mem_byName {rows : List ArchiveRow} {r : ArchiveRow} :
    r ∈ byName rows ↔ r ∈ rows := by
  rw [byName, List.mem_mergeSort]

end ArchiveRow

namespace Catalog

variable {c : Catalog}

section Completed

variable {archives : List ArchiveRecord} {a : ArchiveRecord}

theorem mem_completed_iff (h : c.completed = .ok archives) : a ∈ archives ↔ a.row ∈ c.archives := by
  constructor
  · intro ha
    obtain ⟨r, hr, hread⟩ := exists_row_of_mem h ha
    rw [ArchiveRow.mem_byName, List.mem_filter] at hr
    rw [← ArchiveRow.toRecord_eq_ok_iff.mp hread]
    exact hr.1
  · intro ha
    have hmem : a.row ∈ ArchiveRow.byName (c.archives.filter (·.isComplete)) := by
      rw [ArchiveRow.mem_byName, List.mem_filter]
      exact ⟨ha, a.isComplete_row⟩
    obtain ⟨a', ha', hread⟩ := exists_answer_of_mem h hmem
    rw [ArchiveRow.toRecord_eq_ok_iff.mpr rfl] at hread
    cases hread
    exact ha'

/-- A completed row that is there is one of the completed archives. -/
theorem exists_record_of_complete (h : c.completed = .ok archives) {r : ArchiveRow}
    (hr : r ∈ c.archives) (hcomplete : r.isComplete = true) : ∃ a ∈ archives, r = a.row := by
  have hmem : r ∈ ArchiveRow.byName (c.archives.filter (·.isComplete)) := by
    rw [ArchiveRow.mem_byName, List.mem_filter]
    exact ⟨hr, hcomplete⟩
  obtain ⟨a, ha, hread⟩ := exists_answer_of_mem h hmem
  exact ⟨a, ha, ArchiveRow.toRecord_eq_ok_iff.mp hread⟩

end Completed

/-- Completed archives of one name are one archive. -/
theorem Lawful.eq_of_record_name (h : c.Lawful) {a a' : ArchiveRecord} (ha : a.row ∈ c.archives)
    (ha' : a'.row ∈ c.archives) (hname : a.name = a'.name) : a = a' :=
  ArchiveRecord.row_inj (h.eq_of_name ha ha' (congrArg Cell.text hname))

/-- A completed archive is found by its name. -/
theorem archive?_of_mem (h : c.Lawful) {a : ArchiveRecord} (ha : a.row ∈ c.archives) :
    c.archive? a.name = .ok (some a) := by
  rw [archive?, h.find_name ha rfl ArchiveRow.isComplete a.isComplete_row]
  show a.row.toRecord.map some = _
  rw [ArchiveRow.toRecord_eq_ok_iff.mpr rfl]
  rfl

/-- What is found by a name is a completed archive of that name. -/
theorem mem_of_archive? {name : String} {a : ArchiveRecord} (h : c.archive? name = .ok (some a)) :
    a.row ∈ c.archives ∧ a.name = name := by
  rw [archive?] at h
  split at h
  · cases h
  · rename_i r hfind
    have hmatch := List.find?_some hfind
    rw [Bool.and_eq_true, Cell.equals_text_iff] at hmatch
    cases hread : r.toRecord with
    | error e =>
      rw [hread] at h
      cases h
    | ok record =>
      rw [hread] at h
      cases h
      rw [ArchiveRow.toRecord_eq_ok_iff] at hread
      rw [hread] at hfind hmatch
      exact ⟨List.mem_of_find?_eq_some hfind, Cell.text.inj hmatch.1⟩

/-- Without unfinished archives every row is complete. -/
theorem isComplete_of_unfinished_nil (h : c.unfinished = .ok []) {r : ArchiveRow}
    (hr : r ∈ c.archives) : r.isComplete = true := by
  cases hcomplete : r.isComplete with
  | true => rfl
  | false =>
    have hmem : r ∈ ArchiveRow.byName (c.archives.filter (!·.isComplete)) := by
      rw [ArchiveRow.mem_byName, List.mem_filter, hcomplete]
      exact ⟨hr, rfl⟩
    obtain ⟨name, hname, -⟩ := exists_answer_of_mem h hmem
    cases hname

/-! ### Names -/

section Names

variable {names : List String}

theorem mem_archiveNames_iff (h : c.archiveNames = .ok names) {name : String} :
    name ∈ names ↔ ∃ r ∈ c.archives, r.isComplete = true ∧ r.name = .text name := by
  constructor
  · intro hname
    obtain ⟨r, hr, hread⟩ := exists_row_of_mem h hname
    rw [ArchiveRow.mem_byName, List.mem_filter] at hr
    exact ⟨r, hr.1, hr.2, Cell.toText_eq_ok_iff.mp hread⟩
  · rintro ⟨r, hr, hcomplete, hname⟩
    have hmem : r ∈ ArchiveRow.byName (c.archives.filter (·.isComplete)) := by
      rw [ArchiveRow.mem_byName, List.mem_filter]
      exact ⟨hr, hcomplete⟩
    obtain ⟨name', hname', hread⟩ := exists_answer_of_mem h hmem
    rw [hname, Cell.toText_eq_ok_iff.mpr rfl] at hread
    cases hread
    exact hname'

/-- Names that are read are the cells of their rows. -/
theorem map_text_of_forall {rows : List ArchiveRow}
    (h : List.Forall₂ (fun r name => r.name.toText 0 "name" = .ok name) rows names) :
    rows.map (·.name) = names.map Cell.text := by
  induction h with
  | nil => rfl
  | cons hname _ ih => rw [List.map_cons, List.map_cons, Cell.toText_eq_ok_iff.mp hname, ih]

/-- The names come in ascending order, none of them twice. -/
theorem Lawful.archiveNames_ascend (hlawful : c.Lawful) (h : c.archiveNames = .ok names) :
    names.Pairwise fun x y => compare x y = .lt := by
  have hread : (ArchiveRow.byName (c.archives.filter (·.isComplete))).map (·.name) =
      names.map Cell.text := map_text_of_forall (mapM_eq_ok_iff.mp h)
  have hsorted : (names.map Cell.text).Pairwise fun a b => a.le b = true := by
    rw [← hread, List.pairwise_map]
    exact List.pairwise_mergeSort (fun x y z => @Cell.le_trans x.name y.name z.name)
      (fun x y => Cell.total x.name y.name) _
  have hnodup : names.Nodup := by
    refine List.Nodup.of_map Cell.text ?_
    rw [← hread]
    have hperm := (List.mergeSort_perm (c.archives.filter (·.isComplete))
      fun a b => a.name.le b.name).map ArchiveRow.name
    exact hperm.nodup_iff.mpr (hlawful.names_nodup.sublist (List.filter_sublist.map _))
  exact ascend_of_sorted (List.pairwise_map.mp hsorted) hnodup

theorem exists_archiveNames (h : ∀ r ∈ c.archives, ∃ name, r.name = .text name) :
    ∃ names, c.archiveNames = .ok names := by
  refine exists_mapM_ok ?_
  intro r hr
  rw [ArchiveRow.mem_byName, List.mem_filter] at hr
  obtain ⟨name, hname⟩ := h r hr.1
  exact ⟨name, Cell.toText_eq_ok_iff.mpr hname⟩

end Names

/-! ### Chunks -/

theorem mem_chunkRows {id : Int} {r : ChunkRow} :
    r ∈ c.chunkRows id ↔ r ∈ c.chunks ∧ r.archive.equals (.integer id) = true := by
  rw [chunkRows, List.mem_filter]

/-- An archive's rows in the order of their places, and what is read of each. -/
theorem chunksOf_eq_ok_iff {id : Int} {rows : List ChunkRecord} : c.chunksOf id = .ok rows ↔
    List.Forall₂ (fun r row => r.toRecord = .ok row) (ChunkRow.byOffset (c.chunkRows id)) rows :=
  mapM_eq_ok_iff

section Chunks

variable {id : Int} {rows : List ChunkRecord} (h : c.chunksOf id = .ok rows)

include h

theorem exists_chunkRow {row : ChunkRecord} (hrow : row ∈ rows) :
    ∃ r ∈ c.chunks, r.archive.equals (.integer id) = true ∧ r.toRecord = .ok row := by
  obtain ⟨r, hr, hread⟩ := exists_row_of_mem h hrow
  rw [ChunkRow.byOffset, List.mem_mergeSort, mem_chunkRows] at hr
  exact ⟨r, hr.1, hr.2, hread⟩

theorem exists_chunkRecord {r : ChunkRow} (hr : r ∈ c.chunks)
    (harchive : r.archive.equals (.integer id) = true) : ∃ row ∈ rows, r.toRecord = .ok row := by
  refine exists_answer_of_mem h ?_
  rw [ChunkRow.byOffset, List.mem_mergeSort, mem_chunkRows]
  exact ⟨hr, harchive⟩

theorem map_offset_chunksOf : rows.map (fun r => Cell.integer r.offset) =
    (ChunkRow.byOffset (c.chunkRows id)).map (·.offset) := by
  apply map_eq_of_mapM h
  intro r row hread
  exact (ChunkRow.toRecord_eq_ok_iff.mp hread).2.1.symm

/-- Rows are read in the order of their places. -/
theorem chunksOf_sorted : rows.Pairwise fun r r' => r.offset ≤ r'.offset := by
  have hsorted : (rows.map fun r => Cell.integer r.offset).Pairwise fun x y => x.le y = true := by
    rw [map_offset_chunksOf h, List.pairwise_map]
    exact List.pairwise_mergeSort (fun x y z => @Cell.le_trans x.offset y.offset z.offset)
      (fun x y => Cell.total x.offset y.offset) _
  apply (List.pairwise_map.mp hsorted).imp
  intro r r' hle
  simpa [Cell.le] using hle

omit h in
/-- Rows of one archive start at different places. -/
theorem Lawful.offsets_apart (hlawful : c.Lawful) (id : Int) :
    (c.chunkRows id).Pairwise fun r r' => r.offset.equals r'.offset = false := by
  apply (hlawful.places.filter _).imp_of_mem
  intro r r' hr hr' hplace
  have harchive := Cell.equals_of_equals_integer (mem_chunkRows.mp hr).2 (mem_chunkRows.mp hr').2
  rw [harchive, Bool.true_and] at hplace
  exact hplace

theorem Lawful.chunksOf_ascend (hlawful : c.Lawful) :
    rows.Pairwise fun r r' => r.offset < r'.offset := by
  have hapart : (rows.map fun r => Cell.integer r.offset).Pairwise fun x y => x.equals y = false := by
    rw [map_offset_chunksOf h, List.pairwise_map]
    exact (List.mergeSort_perm _ _).symm.pairwise (hlawful.offsets_apart id)
      fun hne => (Cell.equals_comm _ _).trans hne
  apply ((chunksOf_sorted h).and (List.pairwise_map.mp hapart)).imp
  rintro r r' ⟨hle, hne⟩
  rw [← Bool.not_eq_true, Cell.equals_integer_iff] at hne
  have : r.offset ≠ r'.offset := fun heq => hne (Or.inl (by rw [heq]))
  omega

/-- Places and lengths that are read are numbers of 63 bits, and no length is zero. -/
theorem Lawful.chunk_bounds (hlawful : c.Lawful) {row : ChunkRecord} (hrow : row ∈ rows) :
    row.offset < 2 ^ 63 ∧ 0 < row.length ∧ row.length < 2 ^ 63 := by
  obtain ⟨r, hr, -, hread⟩ := exists_chunkRow h hrow
  obtain ⟨-, hoffset, hlength⟩ := ChunkRow.toRecord_eq_ok_iff.mp hread
  have hwords := hlawful.chunk_words r hr
  have habove := (ChunkRow.check_eq_ok_iff.mp (hlawful.chunk_rules r hr)).2.2.2.2.2
  rw [hoffset, hlength, Cell.isWord_integer_iff, Cell.isWord_integer_iff] at hwords
  rw [hlength, Cell.aboveZero_integer_iff] at habove
  omega

end Chunks

/-! ### Blobs that are referred to -/

/-- What is read of a digest and a length. -/
theorem reference_eq_ok_iff {digest length : Cell} {d : Digest} {n : Nat} :
    (do
      let digest ← digest.toDigest 0 "digest"
      let length ← length.toNatural 1 "length"
      return (digest, length) : Except CatalogError (Digest × Nat)) = .ok (d, n) ↔
      digest = d.cell ∧ length = .integer n := by
  simp only [bind_eq_ok_iff, Cell.toDigest_eq_ok_iff, Cell.toNatural_eq_ok_iff]
  constructor
  · rintro ⟨_, hd, _, hn, heq⟩
    cases heq
    exact ⟨hd, hn⟩
  · rintro ⟨hd, hn⟩
    exact ⟨_, hd, _, hn, rfl⟩

section Referenced

variable {refs : List (Digest × Nat)} (h : c.referenced = .ok refs)

include h

/-- Every chunk has a digest that is referred to, with a length that stands for its own. -/
theorem exists_reference {r : ChunkRow} (hr : r ∈ c.chunks) : ∃ (d : Digest) (n : Nat),
    (d, n) ∈ refs ∧ r.digest = d.cell ∧ (Cell.integer n).same r.length = true := by
  have hmem : (r.digest, r.length) ∈
      (c.chunks.reverse.map fun r => (r.digest, r.length)).mergeSort ChunkRow.blobLE := by
    rw [List.mem_mergeSort, List.mem_map]
    exact ⟨r, List.mem_reverse.mpr hr, rfl⟩
  have hrefl (x : Cell × Cell) : ChunkRow.blobSame x x = true := by
    rw [ChunkRow.blobSame, Cell.same_refl, Cell.same_refl, Bool.and_true]
  obtain ⟨⟨digest, length⟩, hkept, hsame⟩ := exists_same_of_mem_firstOfRuns hrefl hmem
  obtain ⟨⟨d, n⟩, hanswer, hpair⟩ := exists_answer_of_mem h hkept
  obtain ⟨rfl, rfl⟩ := reference_eq_ok_iff.mp hpair
  rw [ChunkRow.blobSame, Bool.and_eq_true, Cell.same_comm, Digest.cell, Cell.same_blob_iff] at hsame
  exact ⟨d, n, hanswer, hsame⟩

/-- A digest of a chunk is among those that are referred to. -/
theorem exists_mem_referenced {r : ChunkRow} {d : Digest} (hr : r ∈ c.chunks)
    (hdigest : r.digest = d.cell) :
    ∃ n : Nat, (d, n) ∈ refs ∧ (Cell.integer n).same r.length = true := by
  obtain ⟨d', n, hmem, hread, hsame⟩ := exists_reference h hr
  cases Cell.digest_cell_inj.mp (hdigest.symm.trans hread)
  exact ⟨n, hmem, hsame⟩

/-- Whatever is referred to is referred to by a chunk. -/
theorem exists_chunk_of_mem_referenced {d : Digest} {n : Nat} (hmem : (d, n) ∈ refs) :
    ∃ r ∈ c.chunks, r.digest = d.cell ∧ r.length = .integer n := by
  obtain ⟨⟨digest, length⟩, hkept, hpair⟩ := exists_row_of_mem h hmem
  have hrow := mem_of_mem_firstOfRuns hkept
  rw [List.mem_mergeSort, List.mem_map] at hrow
  obtain ⟨r, hr, heq⟩ := hrow
  cases heq
  exact ⟨r, List.mem_reverse.mp hr, reference_eq_ok_iff.mp hpair⟩

/-- A pair of digest and length is referred to exactly if a chunk has them. -/
theorem mem_referenced_iff {d : Digest} {n : Nat} :
    (d, n) ∈ refs ↔ ∃ r ∈ c.chunks, r.digest = d.cell ∧ r.length = .integer n := by
  constructor
  · exact exists_chunk_of_mem_referenced h
  · rintro ⟨r, hr, hdigest, hlength⟩
    obtain ⟨m, hmem, hsame⟩ := exists_mem_referenced h hr hdigest
    -- what stands for the row is read, so it is no fraction but the same integer
    rw [hlength, Cell.same_integer_iff] at hsame
    rcases hsame with hnumber | hnumber
    · cases Int.ofNat_inj.mp (Cell.integer.inj hnumber)
      exact hmem
    · cases hnumber

/-- Every chunk that can be read is referred to, with its length. -/
theorem mem_referenced {r : ChunkRow} {row : ChunkRecord} (hr : r ∈ c.chunks)
    (hread : r.toRecord = .ok row) : (row.digest, row.length) ∈ refs := by
  obtain ⟨hdigest, -, hlength⟩ := ChunkRow.toRecord_eq_ok_iff.mp hread
  exact (mem_referenced_iff h).mpr ⟨r, hr, hdigest, hlength⟩

end Referenced

theorem isReferenced_iff {d : Digest} :
    c.isReferenced d = true ↔ ∃ r ∈ c.chunks, r.digest = d.cell := by
  simp only [isReferenced, List.any_eq_true, Cell.equals_digest_iff]

/-! ### Sums of lengths -/

theorem foldl_add_tooLarge (lengths : List Nat) :
    (lengths.map fun n => Cell.integer (n : Nat)).foldl LengthSum.add .tooLarge = .tooLarge := by
  induction lengths with
  | nil => rfl
  | cons n rest ih => exact ih

/-- Adding up integers that are not negative gives their sum, unless it is too large. -/
theorem foldl_add_integers (lengths : List Nat) {total : Nat} (htotal : total < 2 ^ 63) :
    (lengths.map fun n => Cell.integer (n : Nat)).foldl LengthSum.add (.exact total) =
      if total + lengths.sum < 2 ^ 63 then .exact (total + lengths.sum : Nat) else .tooLarge := by
  induction lengths generalizing total with
  | nil =>
    rw [List.map_nil, List.foldl_nil, List.sum_nil, Nat.add_zero, if_pos htotal]
  | cons n rest ih =>
    rw [List.map_cons, List.foldl_cons, List.sum_cons]
    by_cases hfits : total + n < 2 ^ 63
    · have hadd : LengthSum.add (.exact total) (.integer n) = .exact (total + n : Nat) := by
        rw [LengthSum.add, Cell.minInteger, Cell.maxInteger, if_pos (by omega), Int.natCast_add]
      rw [hadd, ih hfits, Nat.add_assoc]
    · have hadd : LengthSum.add (.exact total) (.integer n) = .tooLarge := by
        rw [LengthSum.add, Cell.minInteger, Cell.maxInteger, if_neg (by omega)]
      rw [hadd, foldl_add_tooLarge, if_neg (by omega)]

/-- The sum over an archive's chunks, if they can be read. -/
theorem sumOfChunks_eq {id : Int} {rows : List ChunkRecord} (h : c.chunksOf id = .ok rows) :
    c.sumOfChunks id =
      if (rows.map (·.length)).sum < 2 ^ 63 then .ok (.integer ((rows.map (·.length)).sum : Nat))
      else .error .sumOverflow := by
  have hcells : (ChunkRow.byOffset (c.chunkRows id)).map (·.length) =
      (rows.map (·.length)).map fun n => Cell.integer (n : Nat) := by
    rw [chunksOf_eq_ok_iff] at h
    generalize ChunkRow.byOffset (c.chunkRows id) = sorted at h
    induction h with
    | nil => rfl
    | cons hread _ ih =>
      rw [List.map_cons, List.map_cons, List.map_cons, ih,
        (ChunkRow.toRecord_eq_ok_iff.mp hread).2.2]
  have hfold := foldl_add_integers (rows.map (·.length)) (Nat.two_pow_pos 63)
  rw [Nat.zero_add] at hfold
  by_cases hfits : (rows.map (·.length)).sum < 2 ^ 63
  · rw [if_pos hfits] at hfold ⊢
    rw [sumOfChunks, sumOf, hcells]
    exact hfold ▸ rfl
  · rw [if_neg hfits] at hfold ⊢
    rw [sumOfChunks, sumOf, hcells]
    exact hfold ▸ rfl

section Totals

variable {totals : List ChunkTotal} (h : c.totals = .ok totals)

/-- What is read of an archive's row for its total. -/
theorem total_eq_ok_iff {row : ArchiveRow} {sum : Cell} {t : ChunkTotal} :
    (do
      let name ← row.name.toText 0 "name"
      let recorded ← row.length.toNatural 1 "length"
      let summed ← sum.toNatural 2 sumColumn
      return (⟨name, recorded, summed⟩ : ChunkTotal) : Except CatalogError ChunkTotal) = .ok t ↔
      row.name = .text t.name ∧ row.length = .integer t.recorded ∧ sum = .integer t.summed := by
  simp only [bind_eq_ok_iff, Cell.toText_eq_ok_iff, Cell.toNatural_eq_ok_iff]
  constructor
  · rintro ⟨n, hn, r, hr, s, hs, heq⟩
    cases heq
    exact ⟨hn, hr, hs⟩
  · rintro ⟨hn, hr, hs⟩
    exact ⟨_, hn, _, hr, _, hs, rfl⟩

include h

theorem exists_row_of_mem_totals {t : ChunkTotal} (ht : t ∈ totals) :
    ∃ r ∈ c.archives, r.name = .text t.name ∧ r.length = .integer t.recorded ∧
      c.sumOfChunks r.id = .ok (.integer t.summed) := by
  obtain ⟨sums, hsums, hread⟩ := bind_eq_ok_iff.mp h
  obtain ⟨⟨r, sum⟩, hsum, ht⟩ := exists_row_of_mem hread ht
  obtain ⟨hname, hrecorded, hsummed⟩ := total_eq_ok_iff.mp ht
  obtain ⟨r', hr', heq⟩ := exists_row_of_mem hsums hsum
  rw [ArchiveRow.mem_byName, List.mem_filter] at hr'
  cases hcell : c.sumOfChunks r'.id with
  | error e =>
    rw [hcell] at heq
    cases heq
  | ok cell =>
    rw [hcell] at heq
    cases heq
    exact ⟨r, hr'.1, hname, hrecorded, by rw [hcell, ← hsummed]⟩

theorem exists_total_of_mem {r : ArchiveRow} (hr : r ∈ c.archives)
    (hlength : r.length.isNull = false) : ∃ t ∈ totals, r.name = .text t.name ∧
      r.length = .integer t.recorded ∧ c.sumOfChunks r.id = .ok (.integer t.summed) := by
  obtain ⟨sums, hsums, hread⟩ := bind_eq_ok_iff.mp h
  have hmem : r ∈ ArchiveRow.byName (c.archives.filter (!·.length.isNull)) := by
    rw [ArchiveRow.mem_byName, List.mem_filter, hlength]
    exact ⟨hr, rfl⟩
  obtain ⟨⟨r', sum⟩, hsum, heq⟩ := exists_answer_of_mem hsums hmem
  cases hcell : c.sumOfChunks r.id with
  | error e =>
    rw [hcell] at heq
    cases heq
  | ok cell =>
    rw [hcell] at heq
    cases heq
    obtain ⟨t, ht, hread⟩ := exists_answer_of_mem hread hsum
    obtain ⟨hname, hrecorded, hsummed⟩ := total_eq_ok_iff.mp hread
    exact ⟨t, ht, hname, hrecorded, by rw [← hsummed]⟩

end Totals

/-! ### Questions that are answered -/

/-- Only digests and lengths need to be readable for this question. -/
theorem exists_referenced_of_cells (h : ∀ r ∈ c.chunks, ∃ (d : Digest) (n : Nat),
    r.digest = d.cell ∧ r.length = .integer n) : ∃ refs, c.referenced = .ok refs := by
  apply exists_mapM_ok
  rintro ⟨digest, length⟩ hpair
  have hrow := mem_of_mem_firstOfRuns hpair
  rw [List.mem_mergeSort, List.mem_map] at hrow
  obtain ⟨r, hr, heq⟩ := hrow
  cases heq
  obtain ⟨d, n, hdigest, hlength⟩ := h r (List.mem_reverse.mp hr)
  exact ⟨(d, n), reference_eq_ok_iff.mpr ⟨hdigest, hlength⟩⟩

section Readable

variable (harchives : ∀ r ∈ c.archives, r.IsReadable)
  (hchunks : ∀ r ∈ c.chunks, ∃ row, r.toRecord = .ok row)

/-- Where all archives are completed, none is unfinished. -/
theorem unfinished_eq_nil (hwhole : ∀ r ∈ c.archives, ∃ a : ArchiveRecord, r = a.row) :
    c.unfinished = .ok [] := by
  have hnone : c.archives.filter (!·.isComplete) = [] := by
    rw [List.filter_eq_nil_iff]
    intro r hr
    obtain ⟨a, rfl⟩ := hwhole r hr
    rw [a.isComplete_row]
    exact Bool.false_ne_true
  rw [unfinished, hnone, ArchiveRow.byName, List.mergeSort_nil]
  rfl

include harchives

theorem exists_completed : ∃ archives, c.completed = .ok archives := by
  apply exists_mapM_ok
  intro r hr
  rw [ArchiveRow.mem_byName, List.mem_filter] at hr
  have hlength : r.length.isNull = false := by
    have hcomplete := hr.2
    simp only [ArchiveRow.isComplete, Bool.and_eq_true, Bool.not_eq_true'] at hcomplete
    exact hcomplete.1
  obtain ⟨a, rfl⟩ := (harchives r hr.1).exists_record hlength
  exact ⟨a, ArchiveRow.toRecord_eq_ok_iff.mpr rfl⟩

theorem exists_unfinished : ∃ names, c.unfinished = .ok names := by
  apply exists_mapM_ok
  intro r hr
  rw [ArchiveRow.mem_byName, List.mem_filter] at hr
  obtain ⟨name, hname⟩ := (harchives r hr.1).exists_name
  exact ⟨name, Cell.toText_eq_ok_iff.mpr hname⟩

omit harchives
include hchunks

theorem exists_chunksOf (id : Int) : ∃ rows, c.chunksOf id = .ok rows := by
  refine exists_mapM_ok ?_
  intro r hr
  rw [ChunkRow.byOffset, List.mem_mergeSort, mem_chunkRows] at hr
  exact hchunks r hr.1

theorem exists_referenced : ∃ refs, c.referenced = .ok refs := by
  apply exists_referenced_of_cells
  intro r hr
  obtain ⟨row, hread⟩ := hchunks r hr
  obtain ⟨hdigest, -, hlength⟩ := ChunkRow.toRecord_eq_ok_iff.mp hread
  exact ⟨row.digest, row.length, hdigest, hlength⟩

include harchives

theorem exists_totals (hsums : ∀ a : ArchiveRecord, a.row ∈ c.archives → ∀ rows,
    c.chunksOf a.id = .ok rows → (rows.map (·.length)).sum < 2 ^ 63) :
    ∃ totals, c.totals = .ok totals := by
  have hsum (a : ArchiveRecord) (ha : a.row ∈ c.archives) :
      ∃ n : Nat, c.sumOfChunks a.id = .ok (.integer n) := by
    obtain ⟨rows, hrows⟩ := exists_chunksOf hchunks a.id
    rw [sumOfChunks_eq hrows, if_pos (hsums a ha rows hrows)]
    exact ⟨_, rfl⟩
  have hrecord {r : ArchiveRow}
      (hr : r ∈ ArchiveRow.byName (c.archives.filter (!·.length.isNull))) :
      ∃ a : ArchiveRecord, r = a.row ∧ a.row ∈ c.archives := by
    rw [ArchiveRow.mem_byName, List.mem_filter, Bool.not_eq_true'] at hr
    obtain ⟨a, rfl⟩ := (harchives r hr.1).exists_record hr.2
    exact ⟨a, rfl, hr.1⟩
  have hsums : ∃ sums, (ArchiveRow.byName (c.archives.filter (!·.length.isNull))).mapM
      (fun row => (c.sumOfChunks row.id).map (row, ·)) = .ok sums := by
    apply exists_mapM_ok
    intro r hr
    obtain ⟨a, rfl, ha⟩ := hrecord hr
    obtain ⟨n, hn⟩ := hsum a ha
    exact ⟨(a.row, .integer n), congrArg (Except.map (a.row, ·)) hn⟩
  obtain ⟨sums, hsums⟩ := hsums
  rw [totals, hsums]
  refine @exists_mapM_ok _ _ _ _ sums ?_
  rintro ⟨r, sum⟩ hmem
  obtain ⟨r', hr', heq⟩ := exists_row_of_mem hsums hmem
  obtain ⟨a, rfl, ha⟩ := hrecord hr'
  obtain ⟨n, hn⟩ := hsum a ha
  cases (congrArg (Except.map (a.row, ·)) hn).symm.trans heq
  exact ⟨⟨a.name, a.length, n⟩, total_eq_ok_iff.mpr ⟨rfl, rfl, rfl⟩⟩

omit harchives in
/-- A sum that is too large is all that can keep the totals from being read. -/
theorem totals_eq_error {a : ArchiveRecord} (ha : a.row ∈ c.archives) {rows : List ChunkRecord}
    (hrows : c.chunksOf a.id = .ok rows) (hsum : 2 ^ 63 ≤ (rows.map (·.length)).sum) :
    c.totals = .error .sumOverflow := by
  have hsums : (ArchiveRow.byName (c.archives.filter (!·.length.isNull))).mapM
      (fun row => (c.sumOfChunks row.id).map (row, ·)) = .error .sumOverflow := by
    apply mapM_eq_error
    · intro r _
      obtain ⟨rows, hrows⟩ := exists_chunksOf hchunks r.id
      rw [sumOfChunks_eq hrows]
      split
      · exact Or.inl ⟨_, rfl⟩
      · exact Or.inr rfl
    · refine ⟨a.row, ?_, ?_⟩
      · rw [ArchiveRow.mem_byName, List.mem_filter]
        exact ⟨ha, rfl⟩
      · have hlarge := sumOfChunks_eq hrows
        rw [if_neg (Nat.not_lt.mpr hsum)] at hlarge
        exact congrArg (Except.map (a.row, ·)) hlarge
  rw [totals, hsums]
  rfl

end Readable

end Catalog

end DedupArchive
