/-
  DedupArchive/Proofs/Store/Reporting.lean
  ========================================
  **When an audit reports.**

  Over blobs in memory and a catalog that only transactions have changed, an audit
  finds every row as it was written, so all its questions are answered but one.
  The lengths of an archive's chunks are added up as signed numbers of 64 bits,
  which nothing keeps within bounds: the rules of the tables let through chunks
  that are too long together.
-/
import DedupArchive.Proofs.Catalog.Reachable
import DedupArchive.Proofs.Store.Findings
import DedupArchive.Blobs.Memory

namespace DedupArchive

/-- Whether the lengths of the chunks of every completed archive can be added up. -/
def Catalog.SumsFit (c : Catalog) : Prop :=
  ∀ a : ArchiveRecord, a.row ∈ c.archives → ∀ rows, c.chunksOf a.id = .ok rows →
    (rows.map (·.length)).sum < 2 ^ 63

namespace Store

variable {σ : Type} [BlobStore σ] {s : Store σ}

/-- An audit of rows that can be read either gets to its end or fails at a sum. -/
theorem audit_of_readable (h : s.catalog.Readable)
    (hstored : ∃ stored, BlobStore.digests s.blobs = .ok stored) :
    (s.catalog.SumsFit → ∃ report, s.audit = .ok report) ∧
      (¬ s.catalog.SumsFit → s.audit = .error (.catalog .sumOverflow)) := by
  constructor
  · intro hsums
    exact exists_audit h.archives h.chunks hsums hstored
  · intro hsums
    simp only [Catalog.SumsFit, not_forall, Nat.not_lt] at hsums
    obtain ⟨a, ha, rows, hrows, hsum⟩ := hsums
    exact audit_eq_error h.archives h.chunks hstored ha hrows hsum

/-- **When an audit reports.**  Whatever transactions have made the catalog, and
    whatever blobs there are, all inconsistencies are findings of a report, unless
    the chunks of some archive are too long together. -/
theorem audit_reports_iff (transactions : List (List CatalogChange)) (blobs : MemoryBlobs)
    (p : Params) (home : Option Path) :
    ((∃ report, audit ⟨Catalog.built transactions, blobs, p, home⟩ = .ok report) ↔
      (Catalog.built transactions).SumsFit) ∧
    (¬ (Catalog.built transactions).SumsFit →
      audit ⟨Catalog.built transactions, blobs, p, home⟩ = .error (.catalog .sumOverflow)) := by
  have haudit := @audit_of_readable _ _ ⟨Catalog.built transactions, blobs, p, home⟩
    (Catalog.readable_built transactions) ⟨_, rfl⟩
  refine ⟨⟨?_, haudit.1⟩, haudit.2⟩
  rintro ⟨report, hreport⟩
  by_contra hsums
  cases (haudit.2 hsums).symm.trans hreport

def tooLong (digest : Digest) : List CatalogChange :=
  [.insertArchive "a", .insertChunk 1 digest 0 9223372036854775807,
    .insertChunk 1 digest 9223372036854775807 1, .finalize 1 9223372036854775807 digest]

theorem built_tooLong (digest : Digest) : Catalog.built [tooLong digest] =
    ⟨[(⟨1, "a", 9223372036854775807, digest⟩ : ArchiveRecord).row],
      [⟨.integer 1, digest.cell, .integer 9223372036854775807, .integer 1⟩,
        ⟨.integer 1, digest.cell, .integer 0, .integer 9223372036854775807⟩]⟩ := by
  rfl

/-- Not every audit reports. -/
theorem audit_reports_tooLong :
    audit ⟨Catalog.built [tooLong (Digest.of [])], MemoryBlobs.empty, .standard, none⟩ =
      .error (.catalog .sumOverflow) := by
  have hrows : (Catalog.built [tooLong (Digest.of [])]).chunksOf 1 =
      .ok [⟨Digest.of [], 0, 9223372036854775807⟩, ⟨Digest.of [], 9223372036854775807, 1⟩] := by
    rw [built_tooLong, Catalog.chunksOf_eq_ok_iff]
    simp [ChunkRow.byOffset, Catalog.chunkRows, Cell.equals_integer_iff, List.mergeSort, Cell.le,
      ChunkRow.toRecord_eq_ok_iff]
  have harchive : (⟨1, "a", 9223372036854775807, Digest.of []⟩ : ArchiveRecord).row ∈
      (Catalog.built [tooLong (Digest.of [])]).archives := by
    rw [built_tooLong]
    exact List.mem_singleton_self _
  refine (audit_of_readable (Catalog.readable_built _) ⟨_, rfl⟩).2 ?_
  intro hsums
  exact absurd (hsums _ harchive _ hrows) (by decide)

end Store

end DedupArchive
