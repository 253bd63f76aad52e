/-
  DedupArchive/Proofs/Store/Repairing.lean
  ========================================
  **Storing again repairs what a failed reader has left.**

  When a reader fails, the blobs of the chunks that a cut had ended stay behind
  and nothing refers to them.  Those chunks are the first chunks of everything
  that goes on from where the reader failed, never a part of one.  So when the
  bytes are stored again to their end, under any name that is free, every blob
  that was left is adopted by the new member, and an audit finds nothing.
-/
import DedupArchive.Proofs.Chunking.Prefix
import DedupArchive.Proofs.Store.Runs

namespace DedupArchive.Store

variable {σ : Type} [BlobStore σ] [FaithfulBlobs σ]

/-! ### Clean stores -/

structure Clean (s : Store σ) : Prop where
  lawful : s.catalog.Lawful
  linked : s.catalog.Linked
  ready : FaithfulBlobs.Ready s.blobs
  audited : ∃ report, s.audit = .ok report ∧ report.isClean = true

variable {s : Store σ}

/-- If an audit finds nothing, every blob is in use. -/
theorem isReferenced_of_audit {report : AuditReport} (hready : FaithfulBlobs.Ready s.blobs)
    (haudit : s.audit = .ok report) (hnone : report.findings = []) {d : Digest}
    (hthere : (BlobStore.find s.blobs d).isSome = true) : s.catalog.isReferenced d = true := by
  obtain ⟨refs, stored, hrefs, hstored, hreported⟩ := exists_listed_of_audit haudit
  obtain ⟨stored', hstored', hspec⟩ := FaithfulBlobs.digests_spec hready
  cases hstored.symm.trans hstored'
  by_contra hunused
  have hf : Finding.orphanBlob d ∈ report.findings := by
    refine hreported d ((hspec d).mpr hthere) ?_
    intro n hmem
    obtain ⟨r, hr, hdigest, -⟩ := Catalog.exists_chunk_of_mem_referenced hrefs hmem
    exact hunused (Catalog.isReferenced_iff.mpr ⟨r, hr, hdigest⟩)
  rw [hnone] at hf
  cases hf

/-- Clean is sound, with every blob in use. -/
theorem clean_iff : s.Clean ↔ s.Sound ∧ ∀ d, ¬ s.Unreferenced d := by
  constructor
  · rintro ⟨hlawful, hlinked, hready, report, haudit, hclean⟩
    have hnone : report.findings = [] := by
      rwa [AuditReport.isClean, List.isEmpty_iff] at hclean
    have horphans : ∀ f ∈ report.findings, ∃ d, f = .orphanBlob d := by
      rw [hnone]
      exact fun _ hf => absurd hf List.not_mem_nil
    have hhonest (d : Digest) (data : Bytes) (hfound : BlobStore.find s.blobs d = some data) :
        Digest.of data = d := by
      refine digest_of_audit haudit horphans ?_ hfound
      exact isReferenced_of_audit hready haudit hnone (by rw [hfound]; rfl)
    have hsound : s.Sound :=
      Healthy.sound ⟨hlawful, hlinked, hready, hhonest, report, haudit, horphans⟩
    refine ⟨hsound, ?_⟩
    rintro d ⟨hthere, hunused⟩
    rw [isReferenced_of_audit hready haudit hnone hthere] at hunused
    cases hunused
  · rintro ⟨hsound, hused⟩
    obtain ⟨report, haudit⟩ := hsound.exists_report
    refine ⟨hsound.lawful, hsound.linked, hsound.ready, report, haudit, ?_⟩
    rw [AuditReport.isClean, List.isEmpty_iff, List.eq_nil_iff_forall_not_mem]
    intro f hf
    obtain ⟨d, -, hd⟩ := (hsound.mem_findings_iff haudit).mp hf
    exact hused d hd

/-! ### Chunks that a failed reader has left -/

omit [BlobStore σ] [FaithfulBlobs σ] in
/-- The chunks stored before a reader failed are the first of those that are cut
    when its bytes go on. -/
theorem cut_extends {p : Params} {failing whole : Script} {data more : Bytes} {e : IoError}
    (hfailing : failing.delivered = (data, some e)) (hwhole : whole.delivered = (data ++ more, none)) :
    cut p failing <+: cut p whole := by
  rw [cut, cut, chunksOf_of_failure hfailing, chunksOf_of_delivered hwhole, map_data_ofPiece,
    map_data_ofPiece, pieces_eq, closedPieces_append, List.map_append, List.map_append,
    List.append_assoc]
  exact List.prefix_append _ _

omit [BlobStore σ] [FaithfulBlobs σ] in
/-- Every part of an archive that was entered is in one of its chunks. -/
theorem exists_chunk_of_part {c : Catalog} {a : ArchiveRecord} {parts : List Bytes}
    {rows : List ChunkRecord} (hrows : (c.enter a parts).chunksOf a.id = .ok rows) {data : Bytes}
    (hdata : data ∈ parts) : ∃ row ∈ rows, row.digest = Digest.of data := by
  obtain ⟨r, hr, hdigest⟩ := @Catalog.exists_row_of_mem_parts a.id 0 parts data hdata
  obtain ⟨_, -, offset, -, -, rfl⟩ := Catalog.exists_of_mem_layout hr
  have hmem := List.mem_append_left c.chunks (List.mem_reverse.mpr hr)
  obtain ⟨row, hrow, hread⟩ := Catalog.exists_chunkRecord hrows hmem
    ((Cell.equals_integer_iff _ _).mpr (Or.inl rfl))
  refine ⟨row, hrow, ?_⟩
  rw [(ChunkRow.toRecord_eq_ok_iff.mp hread).1, Cell.digest_cell_inj] at hdigest
  exact hdigest

omit [FaithfulBlobs σ] in
/-- A blob that a failed save has left is one of the chunks it has cut. -/
theorem exists_part_of_left {blobs : σ} {parts : List Bytes}
    (hfind : ∀ d, BlobStore.find blobs d = (BlobStore.find s.blobs d).or (partOf parts d)) {d : Digest}
    (hnone : BlobStore.find s.blobs d = none) (hsome : (BlobStore.find blobs d).isSome = true) :
    ∃ data ∈ parts, Digest.of data = d := by
  rw [hfind, hnone, Option.none_or] at hsome
  obtain ⟨data, hdata⟩ := Option.isSome_iff_exists.mp hsome
  exact ⟨data, partOf_eq_some hdata⟩

/-- **A failed save is repaired by saving again.**  A reader fails after it has
    delivered some bytes; the catalog is as before.  When a reader whose bytes
    begin with these is then stored to its end, under the same name or another,
    the store is clean again, and each blob that the failed save left is one of
    the new member's chunks. -/
theorem save_repairs (hclean : s.Clean) {name name' : String} {failing whole : Script}
    {data more : Bytes} {e : IoError} (hname : s.catalog.archiveId? name = none)
    (hname' : s.catalog.archiveId? name' = none) (hfailing : failing.delivered = (data, some e))
    (hwhole : whole.delivered = (data ++ more, none)) (hfits : (data ++ more).length < 2 ^ 63)
    (hdistinct : Set.InjOn Digest.of (s.occurring failing ∪ s.occurring whole)) :
    (s.save name failing).1 = .error (.chunking (.io e)) ∧
      (s.save name failing).2.catalog = s.catalog ∧
      ∃ summary repaired, (s.save name failing).2.save name' whole = (.ok summary, repaired) ∧
        repaired.Clean ∧ ∃ rows, repaired.catalog.chunksOf summary.archive.id = .ok rows ∧
          ∀ d, BlobStore.find s.blobs d = none →
            (BlobStore.find (s.save name failing).2.blobs d).isSome = true →
              ∃ row ∈ rows, row.digest = d := by
  obtain ⟨hsound, hused⟩ := clean_iff.mp hclean
  have hshort : failing.delivered.1.length < 2 ^ 63 := by
    rw [List.length_append] at hfits
    rw [hfailing]
    exact Nat.lt_of_le_of_lt (Nat.le_add_right _ _) hfits
  obtain ⟨left, hsave, hready, hfind⟩ := save_of_failure hsound.linked.next_free hsound.ready hname hshort hfailing
  rw [hsave]
  refine ⟨rfl, rfl, ?_⟩
  have hleft : Sound { s with blobs := left } := sound_of_more hsound hready hfind
  have hoccurring : Set.InjOn Digest.of (occurring { s with blobs := left } whole) := by
    refine hdistinct.mono ?_
    rintro part (⟨d, hpart⟩ | hpart)
    · rw [hfind, Option.or_eq_some_iff] at hpart
      rcases hpart with hpart | ⟨-, hpart⟩
      · exact Or.inl (Or.inl ⟨d, hpart⟩)
      · exact Or.inl (Or.inr (partOf_eq_some hpart).1)
    · exact Or.inr (Or.inr hpart)
  have hlength : whole.delivered.1.length < 2 ^ 63 := by rw [hwhole]; exact hfits
  have hrepaired : (Store.save { s with blobs := left } name' whole).2.Sound :=
    hleft.save hlength hoccurring
  obtain ⟨summary, blobs, hsave', hrecord, -, hfind'⟩ :=
    save_of_delivered hleft.linked.next_free hready hname' hlength hwhole
  have hadopted {d : Digest} (hnone : BlobStore.find s.blobs d = none)
      (hsome : (BlobStore.find left d).isSome = true) :
      ∃ part ∈ cut s.params whole, Digest.of part = d := by
    obtain ⟨part, hpart, hdigest⟩ := exists_part_of_left hfind hnone hsome
    exact ⟨part, (cut_extends hfailing hwhole).subset hpart, hdigest⟩
  refine ⟨summary, _, hsave', ?_, ?_⟩
  · rw [hsave'] at hrepaired
    refine clean_iff.mpr ⟨hrepaired, ?_⟩
    intro d hd
    have hold := unreferenced_of_entered hfind' hd
    cases hfound : BlobStore.find s.blobs d with
    | some found => exact hused d ⟨by rw [hfound]; rfl, hold.2⟩
    | none =>
      -- the failed save left the blob, so the new member refers to it
      refine absurd hd.2 ?_
      rw [Bool.not_eq_false, Catalog.isReferenced_enter_iff]
      exact Or.inr (hadopted hfound hold.1)
  · rw [hsave'] at hrepaired
    obtain ⟨a, hrow, content, ⟨rows, hrows, -⟩, -⟩ := hrepaired.whole _ List.mem_cons_self
    cases ArchiveRecord.row_inj hrow
    rw [hrecord]
    refine ⟨rows, hrows, ?_⟩
    intro d hnone hsome
    obtain ⟨part, hpart, rfl⟩ := hadopted hnone hsome
    exact exists_chunk_of_part hrows hpart

/-- The empty store is clean. -/
theorem clean_empty {blobs : σ} (hready : FaithfulBlobs.Ready blobs)
    (hempty : ∀ d, BlobStore.find blobs d = none) (p : Params) (home : Option Path) :
    Clean ⟨.empty, blobs, p, home⟩ := by
  refine clean_iff.mpr ⟨sound_empty hready hempty p home, ?_⟩
  rintro d ⟨hthere, -⟩
  rw [hempty] at hthere
  cases hthere

def bytewise : Params := { Params.standard with minSize := 0, maxSize := some 1 }

def lostAfterOne : Script := [.data [7] none, .failure ⟨.other, "lost"⟩]

def sameTwice : Script := [.data [7, 7] (some 1)]

theorem save_repairs_bytewise : ∃ summary repaired,
    ((⟨.empty, .empty, bytewise, none⟩ : Store MemoryBlobs).save "a" lostAfterOne).2.save "b"
      sameTwice = (.ok summary, repaired) ∧ repaired.Clean := by
  have hclean : Clean (⟨.empty, .empty, bytewise, none⟩ : Store MemoryBlobs) :=
    clean_empty trivial MemoryBlobs.find_empty bytewise none
  have hlost : lostAfterOne.delivered = ([7], some ⟨.other, "lost"⟩) := rfl
  have hwhole : sameTwice.delivered = ([7] ++ [7], none) := rfl
  have hone : ∀ data ∈ cut bytewise lostAfterOne, data = [7] := by
    rw [cut, chunksOf_of_failure hlost]
    decide
  have htwo : ∀ data ∈ cut bytewise sameTwice, data = [7] := by
    rw [cut, chunksOf_of_delivered hwhole]
    decide
  have hsame : ∀ data ∈ occurring (⟨.empty, .empty, bytewise, none⟩ : Store MemoryBlobs) lostAfterOne ∪
      occurring (⟨.empty, .empty, bytewise, none⟩ : Store MemoryBlobs) sameTwice, data = [7] := by
    rintro data ((⟨d, hfound⟩ | hdata) | (⟨d, hfound⟩ | hdata))
    · rw [MemoryBlobs.find_empty] at hfound
      cases hfound
    · exact hone data hdata
    · rw [MemoryBlobs.find_empty] at hfound
      cases hfound
    · exact htwo data hdata
  obtain ⟨-, -, summary, repaired, hsave, hrepaired, -⟩ :=
    @save_repairs MemoryBlobs _ _ _ hclean "a" "b" _ _ _ _ _ rfl rfl hlost hwhole (by decide) (by
      intro x hx y hy _
      rw [hsame x hx, hsame y hy])
  exact ⟨summary, repaired, hsave, hrepaired⟩

end DedupArchive.Store
