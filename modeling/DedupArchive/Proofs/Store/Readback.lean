/-
  DedupArchive/Proofs/Store/Readback.lean
  =======================================
  **Whether a member that was just stored can be loaded.**

  A save trusts two things that no audit looks at: that a blob which lies under a
  chunk's digest is that chunk, even if nothing refers to it, and that no chunk
  row waits for the id which the new archive gets.  Where both hold, every save
  that reports success can be read back, however long the member is: a length
  that the tables cannot hold is refused.  Where either fails, success may be
  reported and the member be lost.
-/
import DedupArchive.Proofs.Catalog.Numbers
import DedupArchive.Proofs.Store.Runs
import Mathlib.Algebra.Order.BigOperators.Group.List

namespace DedupArchive

/-! ### Lengths that are accepted -/

theorem Catalog.fits_of_insertChunk {c c' : Catalog} {id : Int} {d : Digest} {offset length : Nat}
    (hoffset : offset < 2 ^ 64) (hlength : length < 2 ^ 64)
    (h : c.insertChunk id d (UInt64.ofNat offset) (UInt64.ofNat length) = .ok c') :
    offset < 2 ^ 63 ∧ length < 2 ^ 63 ∧ c'.archives = c.archives := by
  obtain ⟨htakes, rfl⟩ := insertChunk_eq_ok_iff.mp h
  rw [UInt64.toNat_ofNat_of_lt' hoffset, UInt64.toNat_ofNat_of_lt' hlength] at htakes
  exact ⟨htakes.offset_fits, htakes.length_fits, rfl⟩

namespace Store

variable {σ : Type} [BlobStore σ]

section Accepted

variable {t t' : Saving σ} {id : Int}

theorem Saving.length_of_add {chunk : Chunk} (hwhole : t.whole.length < 2 ^ 64)
    (hchunk : chunk.data.length < 2 ^ 64) (h : t.add id chunk = (.ok (), t')) :
    t'.whole.length = t.whole.length + chunk.data.length ∧ t'.whole.length < 2 ^ 64 ∧
      t'.changes.current.archives = t.changes.current.archives := by
  unfold Saving.add at h
  split at h
  · cases h
  · simp only [Transaction.insertChunk, Transaction.change, Chunk.length] at h
    split at h
    · cases h
    · rename_i hinsert
      split at hinsert
      · rename_i current hrow
        cases hinsert
        cases h
        obtain ⟨hoffset, hlength, harchives⟩ := Catalog.fits_of_insertChunk hwhole hchunk hrow
        refine ⟨rfl, ?_, harchives⟩
        show t.whole.length + chunk.data.length < 2 ^ 64
        omega
      · cases hinsert

theorem Saving.length_of_addAll {chunks : List Chunk} (hwhole : t.whole.length < 2 ^ 64)
    (hchunks : ∀ chunk ∈ chunks, chunk.data.length < 2 ^ 64)
    (h : t.addAll id chunks = (.ok (), t')) :
    t'.whole.length = t.whole.length + (chunks.map (·.data)).flatten.length ∧
      t'.whole.length < 2 ^ 64 ∧ t'.changes.current.archives = t.changes.current.archives := by
  induction chunks generalizing t with
  | nil =>
    cases h
    exact ⟨rfl, hwhole, rfl⟩
  | cons chunk rest ih =>
    unfold Saving.addAll at h
    split at h
    · cases h
    · rename_i t₁ hadd
      obtain ⟨hlength₁, hword₁, harchives₁⟩ :=
        Saving.length_of_add hwhole (hchunks chunk List.mem_cons_self) hadd
      obtain ⟨hlength, hword, harchives⟩ :=
        ih hword₁ (fun c hc => hchunks c (List.mem_cons_of_mem chunk hc)) h
      refine ⟨?_, hword, harchives.trans harchives₁⟩
      rw [hlength, hlength₁, List.map_cons, List.flatten_cons, List.length_append, Nat.add_assoc]

end Accepted

section Reported

variable {s s' : Store σ} {name : String} {script : Script} {summary : SaveSummary}

/-- A save that reports success has found the name free and the reader has come to
    its end; all chunks and the whole length were accepted. -/
theorem exists_accepted_of_save (h : s.save name script = (.ok summary, s')) :
    s.catalog.archiveId? name = none ∧ script.delivered.2 = none ∧ ∃ (t : Saving σ) (c : Catalog),
      (s.opening name).addAll s.catalog.nextId (chunksOf { s.params with hashing := true } script).1 =
        (.ok (), t) ∧
      t.changes.current.finalize s.catalog.nextId (UInt64.ofNat t.whole.length) t.whole.digest =
        .ok c := by
  have hname : s.catalog.archiveId? name = none := by
    by_contra hbound
    rw [save_of_bound hbound] at h
    cases h
  have hsome : (s.catalog.archiveId? name).isSome = false := by rw [hname]; rfl
  rcases hadd : (s.opening name).addAll s.catalog.nextId
    (chunksOf { s.params with hashing := true } script).1 with ⟨result, t⟩
  have hopened := hadd
  unfold opening at hopened
  simp only [save, hsome, Bool.false_eq_true, if_false, Transaction.begin, Transaction.insertArchive,
    Catalog.insertArchive_eq hname, hopened] at h
  cases result with
  | error e => cases h
  | ok =>
    cases hfailure : (chunksOf { s.params with hashing := true } script).2 with
    | some e =>
      rw [hfailure] at h
      cases h
    | none =>
      rw [hfailure] at h
      simp only [Transaction.finalize, Transaction.change] at h
      cases hfinalize : t.changes.current.finalize s.catalog.nextId (UInt64.ofNat t.whole.length)
        t.whole.digest with
      | error e =>
        rw [hfinalize] at h
        cases h
      | ok c =>
        refine ⟨hname, ?_, t, c, rfl, hfinalize⟩
        cases hend : script.delivered.2 with
        | none => rfl
        | some e =>
          have hdelivered : script.delivered = (script.delivered.1, some e) := by rw [← hend]
          rw [chunksOf_of_failure hdelivered] at hfailure
          cases hfailure

/-- What a save has taken in is shorter than a store can count, if no chunk is
    longer than a word can count. -/
theorem fits_of_save (h : s.save name script = (.ok summary, s'))
    (hwords : ∀ data ∈ cut s.params script, data.length < 2 ^ 64) :
    script.delivered.1.length < 2 ^ 63 := by
  obtain ⟨-, hwhole, t, c, hadd, hfinalize⟩ := exists_accepted_of_save h
  have hdelivered : script.delivered = (script.delivered.1, none) := by rw [← hwhole]
  have hchunks : ∀ chunk ∈ (chunksOf { s.params with hashing := true } script).1,
      chunk.data.length < 2 ^ 64 :=
    fun chunk hchunk => hwords chunk.data (List.mem_map_of_mem hchunk)
  obtain ⟨hlength, hword, harchives⟩ := Saving.length_of_addAll (Nat.two_pow_pos 64) hchunks hadd
  have hrow : (⟨s.catalog.nextId, .text name, .null, .null⟩ : ArchiveRow) ∈
      t.changes.current.archives := by
    rw [harchives]
    exact List.mem_cons_self
  have hfits := Catalog.fits_of_finalize hfinalize hrow rfl
  rw [UInt64.toNat_ofNat_of_lt' hword] at hfits
  have hflatten : (cut s.params script).flatten = script.delivered.1 := flatten_cut hdelivered
  have hstart : (s.opening name).whole.length = 0 := rfl
  rw [hlength, hstart, Nat.zero_add] at hfits
  rw [← hflatten]
  exact hfits

end Reported

/-! ### What was stored is loaded -/

variable [FaithfulBlobs σ]

section Readback

variable {s s' : Store σ} {name : String} {script : Script} {summary : SaveSummary}

/-- **A save that reports success can be read back**, if an audit finds only blobs
    that are not in use, those of them that lie under the digest of one of its
    chunks are that chunk, and no chunk row waits for the id of the new archive. -/
theorem load_after_save (hlawful : s.catalog.Lawful) (hready : FaithfulBlobs.Ready s.blobs)
    {report : AuditReport} (haudit : s.audit = .ok report)
    (horphans : ∀ f ∈ report.findings, ∃ d, f = .orphanBlob d)
    (hfree : ∀ r ∈ s.catalog.chunks, r.archive.equals (.integer s.catalog.nextId) = false)
    (hleft : ∀ data ∈ cut s.params script, ∀ found,
      BlobStore.find s.blobs (Digest.of data) = some found →
        s.catalog.isReferenced (Digest.of data) = false → found = data)
    (hdistinct : Set.InjOn Digest.of (s.occurring script))
    (hwords : ∀ data ∈ cut s.params script, data.length < 2 ^ 64)
    (hsave : s.save name script = (.ok summary, s')) {sink : Sink} (hsink : sink.TakesAll) :
    script.delivered.2 = none ∧ ∃ sink', s'.load name sink = (.ok summary.archive, sink') ∧
      sink'.contents = sink.contents ++ script.delivered.1 := by
  obtain ⟨hname, hwhole, -⟩ := exists_accepted_of_save hsave
  refine ⟨hwhole, ?_⟩
  have hfits := fits_of_save hsave hwords
  have hdelivered : script.delivered = (script.delivered.1, none) := by rw [← hwhole]
  obtain ⟨summary', blobs, hsave', hrecord, -, hfind⟩ :=
    save_of_delivered hfree hready hname hfits hdelivered
  cases hsave.symm.trans hsave'
  have hadmits := admits_of_delivered hfree hname hfits hdelivered
  have hright : ∀ data ∈ cut s.params script, ∀ found,
      BlobStore.find s.blobs (Digest.of data) = some found → found = data := by
    intro data hdata found hfound
    cases hused : s.catalog.isReferenced (Digest.of data) with
    | false => exact hleft data hdata found hfound hused
    | true =>
      have hdigest := digest_of_audit haudit horphans hused hfound
      exact hdistinct (Or.inl ⟨_, hfound⟩) (Or.inr hdata) hdigest
  have hparts := find_part_of_put hfind hright (hdistinct.mono fun _ hdata => Or.inr hdata)
  have hflatten : (cut s.params script).flatten = script.delivered.1 := flatten_cut hdelivered
  have hholds := Catalog.holds_enter hadmits hparts (congrArg Digest.of hflatten)
  obtain ⟨sink', hload, hcontents⟩ := load_of_holds
    (info_of_mem (s := { s with
      catalog := s.catalog.enter (s.recordOf name script.delivered.1) (cut s.params script), blobs })
      (hlawful.enter hadmits) List.mem_cons_self) hholds hsink
  refine ⟨sink', ?_, ?_⟩
  · rw [hrecord]
    exact hload
  · rw [hcontents, hflatten]

end Readback

/-! ### What a save trusts -/

/-- Without archives an audit looks at the blobs alone. -/
theorem exists_report_of_no_archives {s : Store σ} (hnone : s.catalog.archives = [])
    (hready : FaithfulBlobs.Ready s.blobs)
    (hchunks : ∀ r ∈ s.catalog.chunks, ∃ row data, r.toRecord = .ok row ∧
      BlobStore.find s.blobs row.digest = some data ∧ data.length = row.length ∧
        Digest.of data = row.digest) :
    ∃ report, s.audit = .ok report ∧ ∀ f ∈ report.findings, ∃ d, f = .orphanBlob d := by
  have hempty (r : ArchiveRow) : r ∉ s.catalog.archives := by
    rw [hnone]
    exact List.not_mem_nil
  obtain ⟨stored, hstored, -⟩ := FaithfulBlobs.digests_spec hready
  obtain ⟨report, haudit⟩ := exists_audit (fun r hr => absurd hr (hempty r))
    (fun r hr => by
      obtain ⟨row, -, hread, -⟩ := hchunks r hr
      exact ⟨row, hread⟩)
    (fun a ha => absurd ha (hempty a.row)) ⟨stored, hstored⟩
  refine ⟨report, haudit, ?_⟩
  obtain ⟨archives, unfinished, uncovered, orphans, damaged, blobs, mismatched, mislength,
    harchives, hunfinished, huncovered, horphans, hdamaged, hmismatched, hmislength, rfl⟩ :=
    audit_eq_ok_iff.mp haudit
  intro f hf
  simp only [List.mem_append] at hf
  rcases hf with ((((hf | hf) | hf) | hf) | hf) | hf
  · have hnames : s.findUnfinished = .ok [] := by
      rw [findUnfinished, Catalog.unfinished_eq_nil fun r hr => absurd hr (hempty r)]
      rfl
    cases hunfinished.symm.trans hnames
    cases hf
  · obtain ⟨a, ha, -⟩ := (mem_findEach_iff huncovered).mp hf
    exact absurd ((Catalog.mem_completed_iff harchives).mp ha) (hempty _)
  · exact eq_of_mem_findOrphans horphans hf
  · obtain ⟨refs, hrefs, ⟨d, n⟩, hmem, hf⟩ := (mem_findDamaged_iff hdamaged).mp hf
    obtain ⟨r, hr, hdigest, hlength⟩ := Catalog.exists_chunk_of_mem_referenced hrefs hmem
    obtain ⟨row, data, hread, hfound, hsize, hright⟩ := hchunks r hr
    obtain ⟨hdigest', -, hlength'⟩ := ChunkRow.toRecord_eq_ok_iff.mp hread
    rw [hdigest, Cell.digest_cell_inj] at hdigest'
    rw [hlength, Cell.integer.injEq, Int.ofNat_inj] at hlength'
    subst hdigest' hlength'
    rw [checkBlob, BlobStore.find_eq_some_iff.mp hfound] at hf
    simp only [hsize, hright, ne_eq, not_true_eq_false, if_false, List.not_mem_nil] at hf
  · obtain ⟨a, ha, -⟩ := (mem_findEach_iff hmismatched).mp hf
    exact absurd ((Catalog.mem_completed_iff harchives).mp ha) (hempty _)
  · obtain ⟨totals, htotals, t, ht, -⟩ := (mem_findMislength_iff hmislength).mp hf
    obtain ⟨r, hr, -⟩ := Catalog.exists_row_of_mem_totals htotals ht
    exact absurd hr (hempty r)

def leftover (data : Bytes) : Store MemoryBlobs where
  catalog := .empty
  blobs := (MemoryBlobs.empty.put (Digest.of [1, 2, 3]) data).2
  params := .standard
  home := none

theorem not_mem_chunks_leftover {data : Bytes} {r : ChunkRow} : r ∉ (leftover data).catalog.chunks :=
  List.not_mem_nil

theorem find_put_empty (d e : Digest) (data : Bytes) :
    BlobStore.find (MemoryBlobs.empty.put d data).2 e = if d = e then some data else none := by
  obtain ⟨new, blobs, hput, -, hfind⟩ := @FaithfulBlobs.put_spec MemoryBlobs _ _ .empty d data trivial
  have hblobs : (MemoryBlobs.empty.put d data).2 = blobs := congrArg Prod.snd hput
  rw [hblobs, hfind, MemoryBlobs.find_empty, Option.none_or]

theorem exists_report_leftover (data : Bytes) : ∃ report, (leftover data).audit = .ok report ∧
    ∀ f ∈ report.findings, ∃ d, f = .orphanBlob d :=
  exists_report_of_no_archives rfl trivial fun _ hr => absurd hr not_mem_chunks_leftover

/-- The leftover is the chunk that is stored. -/
theorem load_after_save_leftover : ∃ summary s' sink,
    (leftover [1, 2, 3]).save "a" threeBytes = (.ok summary, s') ∧
      s'.load "a" .unlimited = (.ok summary.archive, sink) ∧ sink.contents = [1, 2, 3] := by
  have hdelivered : threeBytes.delivered = ([1, 2, 3], none) := rfl
  have hcut {data : Bytes} (hdata : data ∈ cut (leftover [1, 2, 3]).params threeBytes) :
      data = [1, 2, 3] := by
    rw [show (leftover [1, 2, 3]).params = .standard from rfl, cut_threeBytes] at hdata
    exact List.mem_singleton.mp hdata
  have hstored {d : Digest} {data : Bytes}
      (hfound : BlobStore.find (leftover [1, 2, 3]).blobs d = some data) : data = [1, 2, 3] := by
    rw [leftover, find_put_empty] at hfound
    split at hfound
    · cases hfound
      rfl
    · cases hfound
  have hdistinct : Set.InjOn Digest.of ((leftover [1, 2, 3]).occurring threeBytes) := by
    have hsame {data : Bytes} (hdata : data ∈ (leftover [1, 2, 3]).occurring threeBytes) :
        data = [1, 2, 3] := by
      rcases hdata with ⟨d, hfound⟩ | hdata
      · exact hstored hfound
      · exact hcut hdata
    intro x hx y hy _
    rw [hsame hx, hsame hy]
  have hwords : ∀ data ∈ cut (leftover [1, 2, 3]).params threeBytes, data.length < 2 ^ 64 := by
    intro data hdata
    rw [hcut hdata]
    decide
  have hfree : ∀ r ∈ (leftover [1, 2, 3]).catalog.chunks,
      r.archive.equals (.integer (leftover [1, 2, 3]).catalog.nextId) = false :=
    fun _ hr => absurd hr not_mem_chunks_leftover
  obtain ⟨report, haudit, horphans⟩ := exists_report_leftover [1, 2, 3]
  obtain ⟨summary, blobs, hsave, -⟩ := @save_of_delivered MemoryBlobs _ _ (leftover [1, 2, 3]) "a"
    threeBytes hfree trivial rfl (by decide) _ hdelivered
  obtain ⟨-, sink, hload, hcontents⟩ := load_after_save Catalog.lawful_empty trivial haudit horphans
    hfree (fun data hdata found hfound _ => (hstored hfound).trans (hcut hdata).symm) hdistinct hwords
    hsave Sink.takesAll_unlimited
  exact ⟨summary, _, sink, hsave, hload, hcontents⟩

/-- An audit finds only blobs that are not in use and a save reports success, but
    what it has stored cannot be loaded. -/
def Misleads (s : Store σ) (name : String) (script : Script) : Prop :=
  s.catalog.Lawful ∧
  (∃ report, s.audit = .ok report ∧ ∀ f ∈ report.findings, ∃ d, f = .orphanBlob d) ∧
  Set.InjOn Digest.of {data | data ∈ cut s.params script} ∧
  ∃ summary s', s.save name script = (.ok summary, s') ∧
    ∀ (sink : Sink) (record : ArchiveRecord), (s'.load name sink).1 ≠ .ok record

/-- The chunk is taken to be there, but other bytes lie under its digest. -/
theorem leftover_misleads : (leftover [9]).Misleads "a" threeBytes := by
  have hcut : cut (leftover [9]).params threeBytes = [[1, 2, 3]] := cut_threeBytes
  have hdelivered : threeBytes.delivered = ([1, 2, 3], none) := rfl
  have hfits : threeBytes.delivered.1.length < 2 ^ 63 := by decide
  have hfree : ∀ r ∈ (leftover [9]).catalog.chunks,
      r.archive.equals (.integer (leftover [9]).catalog.nextId) = false :=
    fun _ hr => absurd hr not_mem_chunks_leftover
  obtain ⟨summary, blobs, hsave, -, -, hfind⟩ :=
    @save_of_delivered MemoryBlobs _ _ _ "a" _ hfree trivial rfl hfits _ hdelivered
  have hadmits := @admits_of_delivered MemoryBlobs (leftover [9]) "a" _ hfree rfl hfits _ hdelivered
  refine ⟨Catalog.lawful_empty, exists_report_leftover [9], ?_, summary, _, hsave, ?_⟩
  · intro x hx y hy _
    rw [hcut] at hx hy
    exact (List.mem_singleton.mp hx).trans (List.mem_singleton.mp hy).symm
  · intro sink record hload
    have hinfo := info_of_mem (s := { leftover [9] with
      catalog := (leftover [9]).catalog.enter ((leftover [9]).recordOf "a" [1, 2, 3])
        (cut (leftover [9]).params threeBytes), blobs })
      (Catalog.lawful_empty.enter hadmits) List.mem_cons_self
    obtain ⟨content, ⟨rows, hrows, htiles⟩, -⟩ := holds_of_load hinfo hload
    rw [hcut] at hrows
    have hmem : (⟨.integer 1, (Digest.of [1, 2, 3]).cell, .integer 0, .integer 3⟩ : ChunkRow) ∈
        ((leftover [9]).catalog.enter ((leftover [9]).recordOf "a" [1, 2, 3]) [[1, 2, 3]]).chunks :=
      List.mem_cons_self
    obtain ⟨row, hrow, hread⟩ := Catalog.exists_chunkRecord hrows hmem
      ((Cell.equals_integer_iff _ _).mpr (Or.inl rfl))
    obtain ⟨hdigest, -, hlength⟩ := ChunkRow.toRecord_eq_ok_iff.mp hread
    obtain ⟨data, hfound, hsize⟩ := htiles.exists_blob hrow
    have hwrong : BlobStore.find (leftover [9]).blobs (Digest.of [1, 2, 3]) = some [9] :=
      (find_put_empty _ _ _).trans (if_pos rfl)
    rw [← Cell.digest_cell_inj.mp hdigest, hfind, hwrong, Option.some_or] at hfound
    cases hfound
    rw [← hsize] at hlength
    exact absurd hlength (by decide)

def strayChunk : Store MemoryBlobs where
  catalog := ⟨[], [⟨.integer 1, (Digest.of [7]).cell, .integer 0, .integer 1⟩]⟩
  blobs := (MemoryBlobs.empty.put (Digest.of [7]) [7]).2
  params := .standard
  home := none

theorem lawful_strayChunk : strayChunk.catalog.Lawful := by
  constructor <;>
    simp [strayChunk, ChunkRow.check_eq_ok_iff, Digest.cell, Cell.isNull,
      Cell.atLeastZero_integer_iff, Cell.aboveZero_integer_iff, Cell.isWord_integer_iff]

theorem exists_report_strayChunk : ∃ report, strayChunk.audit = .ok report ∧
    ∀ f ∈ report.findings, ∃ d, f = .orphanBlob d := by
  refine exists_report_of_no_archives rfl trivial ?_
  intro r hr
  rw [List.mem_singleton.mp hr]
  refine ⟨⟨Digest.of [7], 0, 1⟩, [7], ChunkRow.toRecord_eq_ok_iff.mpr ⟨rfl, rfl, rfl⟩, ?_, rfl, rfl⟩
  exact (find_put_empty _ _ _).trans (if_pos rfl)

omit [FaithfulBlobs σ] in
/-- A member without bytes is entered and touches neither blobs nor chunks. -/
theorem save_of_nothing {s : Store σ} {name : String} {script : Script}
    (hname : s.catalog.archiveId? name = none) (hdelivered : script.delivered = ([], none)) :
    s.save name script = (.ok ⟨s.recordOf name [], 0, 0⟩,
      { s with catalog := s.catalog.enter (s.recordOf name []) [] }) := by
  have hchunks : chunksOf { s.params with hashing := true } script = ([], none) :=
    chunksOf_of_delivered hdelivered
  have hlength : Digest.Running.start.length = 0 := rfl
  have hdigest : Digest.Running.start.digest = Digest.of [] := Digest.Running.digest_start_feed []
  have hfinalize := Catalog.finalize_eq
    (c := ⟨⟨s.catalog.nextId, .text name, .null, .null⟩ :: s.catalog.archives, s.catalog.chunks⟩)
    rfl rfl (fun r hr => Catalog.ne_nextId hr) (Nat.two_pow_pos 63) (Digest.of [])
  simp only [save, hname, Option.isSome_none, Bool.false_eq_true, if_false, Transaction.begin,
    Transaction.insertArchive, Catalog.insertArchive_eq hname, hchunks, Saving.addAll,
    Transaction.finalize, Transaction.change, hlength, hdigest, hfinalize]
  rfl

/-- The archive gets the id that the stray chunk has. -/
theorem strayChunk_misleads : strayChunk.Misleads "a" [] := by
  have hdelivered : Script.delivered [] = ([], none) := rfl
  refine ⟨lawful_strayChunk, exists_report_strayChunk, ?_, _, _, save_of_nothing rfl hdelivered, ?_⟩
  · intro data hdata
    change data ∈ cut strayChunk.params [] at hdata
    rw [cut, chunksOf_of_delivered hdelivered] at hdata
    exact absurd hdata List.not_mem_nil
  · intro sink record hload
    have hlawful : (strayChunk.catalog.enter (strayChunk.recordOf "a" []) []).Lawful := by
      constructor <;>
        simp [strayChunk, recordOf, Catalog.enter, Catalog.layout, ArchiveRecord.row,
          ArchiveRow.check_eq_ok_iff, ChunkRow.check_eq_ok_iff, Digest.cell, Cell.isNull,
          Cell.atLeastZero_integer_iff, Cell.aboveZero_integer_iff, Cell.isWord_integer_iff]
    have hinfo := info_of_mem (s := { strayChunk with
      catalog := strayChunk.catalog.enter (strayChunk.recordOf "a" []) [] }) hlawful List.mem_cons_self
    obtain ⟨content, ⟨rows, hrows, htiles⟩, -, hlength⟩ := holds_of_load hinfo hload
    obtain ⟨row, hrow, hread⟩ := Catalog.exists_chunkRecord hrows List.mem_cons_self
      ((Cell.equals_integer_iff _ _).mpr (Or.inl rfl))
    have hone : row.length = 1 :=
      (Int.ofNat_inj.mp (Cell.integer.inj (ChunkRow.toRecord_eq_ok_iff.mp hread).2.2)).symm
    have hsum := List.le_sum_of_mem (List.mem_map_of_mem (f := ChunkRecord.length) hrow)
    rw [htiles.sum_lengths, hlength, hone] at hsum
    exact absurd hsum (by decide)

/-- An audit does not see what a save trusts. -/
theorem save_misleads :
    (leftover [9]).Misleads "a" threeBytes ∧ strayChunk.Misleads "a" [] :=
  ⟨leftover_misleads, strayChunk_misleads⟩

end Store

end DedupArchive
