/-
  DedupArchive/Proofs/Catalog/Reachable.lean
  ==========================================
  **Catalogs that transactions make.**

  A transaction takes any changes in any order, and refuses some of them.  What it
  writes are names, digests and numbers that the rules of the tables have let
  through, so every row of a catalog that only transactions have changed can be
  read as what it was written as.
-/
import DedupArchive.Proofs.Catalog.Growth

namespace DedupArchive

/-! ### Runs of transactions -/

inductive CatalogChange where
  | insertArchive (name : String)
  | insertChunk (id : Int) (digest : Digest) (offset length : UInt64)
  | finalize (id : Int) (length : UInt64) (digest : Digest)
  | deleteArchive (id : Int)

def Transaction.after (t : Transaction) : CatalogChange → Transaction
  | .insertArchive name => (t.insertArchive name).2
  | .insertChunk id digest offset length => (t.insertChunk id digest offset length).2
  | .finalize id length digest => (t.finalize id length digest).2
  | .deleteArchive id => t.deleteArchive id

namespace Catalog

def committed (c : Catalog) (changes : List CatalogChange) : Catalog :=
  (changes.foldl Transaction.after (.begin c)).commit

def built (transactions : List (List CatalogChange)) : Catalog := transactions.foldl committed .empty

/-! ### Rows that can be read -/

structure Readable (c : Catalog) : Prop where
  archives : ∀ r ∈ c.archives, r.IsReadable
  chunks : ∀ r ∈ c.chunks, ∃ row, r.toRecord = .ok row

theorem readable_empty : empty.Readable := by
  constructor <;> simp [empty]

variable {c c' : Catalog}

theorem Readable.insertArchive (h : c.Readable) {name : String} {id : Int}
    (hinsert : c.insertArchive name = .ok (id, c')) : c'.Readable := by
  obtain ⟨-, rfl⟩ := added_of_insertArchive hinsert
  constructor
  · intro r hr
    rcases List.mem_cons.mp hr with rfl | hr
    · exact Or.inl ⟨_, name, rfl⟩
    · exact h.archives r hr
  · exact h.chunks

theorem Readable.insertChunk (h : c.Readable) {id : Int} {digest : Digest} {offset length : UInt64}
    (hinsert : c.insertChunk id digest offset length = .ok c') : c'.Readable := by
  obtain ⟨c₁, hadd, hinsert⟩ := bind_eq_ok_iff.mp hinsert
  obtain ⟨⟨⟩, hrule, hadd⟩ := bind_eq_ok_iff.mp hadd
  obtain ⟨-, -, hadd⟩ := bind_eq_ok_iff.mp hadd
  cases hadd
  split at hinsert
  · cases hinsert
    obtain ⟨-, -, -, -, hzero, habove⟩ := ChunkRow.check_eq_ok_iff.mp hrule
    have hplace := signedCell_eq (atLeastZero_signedCell_iff.mp hzero)
    have hsize := signedCell_eq (aboveZero_signedCell_iff.mp habove).2
    constructor
    · exact h.archives
    · intro r hr
      rcases List.mem_cons.mp hr with rfl | hr
      · exact ⟨⟨digest, offset.toNat, length.toNat⟩, ChunkRow.toRecord_eq_ok_iff.mpr ⟨rfl, hplace, hsize⟩⟩
      · exact h.chunks r hr
  · cases hinsert

theorem Readable.finalize (h : c.Readable) {id : Int} {length : UInt64} {digest : Digest}
    (hfinalize : c.finalize id length digest = .ok c') : c'.Readable := by
  obtain ⟨archives, hrows, heq⟩ := bind_eq_ok_iff.mp hfinalize
  cases heq
  constructor
  · intro r' hr'
    obtain ⟨r, hr, hrow⟩ := exists_row_of_mem hrows hr'
    split at hrow
    · obtain ⟨⟨⟩, hrule, heq⟩ := bind_eq_ok_iff.mp hrow
      obtain ⟨name, hname⟩ := (h.archives r hr).exists_name
      have hsize := signedCell_eq (atLeastZero_signedCell_iff.mp (ArchiveRow.check_eq_ok_iff.mp hrule).2)
      cases heq
      apply Or.inr
      exact ⟨⟨r.id, name, length.toNat, digest⟩, by simp only [ArchiveRecord.row, hname, hsize]⟩
    · rw [← Except.ok.inj hrow]
      exact h.archives r hr
  · exact h.chunks

theorem Readable.deleteArchive (h : c.Readable) (id : Int) : (c.deleteArchive id).Readable := by
  constructor
  · intro r hr
    exact h.archives r (List.mem_filter.mp hr).1
  · intro r hr
    exact h.chunks r (List.mem_filter.mp hr).1

end Catalog

/-- **One change.**  Whatever is asked of a transaction, its rows can be read. -/
theorem Transaction.readable_after {t : Transaction} (h : t.current.Readable) (change : CatalogChange) :
    (t.after change).current.Readable := by
  cases change with
  | insertArchive name =>
    simp only [after, Transaction.insertArchive]
    split
    · rename_i hinsert
      exact h.insertArchive hinsert
    · exact h
  | insertChunk id digest offset length =>
    simp only [after, Transaction.insertChunk, change]
    split
    · rename_i hinsert
      exact h.insertChunk hinsert
    · exact h
  | finalize id length digest =>
    simp only [after, Transaction.finalize, change]
    split
    · rename_i hfinalize
      exact h.finalize hfinalize
    · exact h
  | deleteArchive id => exact h.deleteArchive id

namespace Catalog

theorem Readable.committed {c : Catalog} (h : c.Readable) (changes : List CatalogChange) :
    (c.committed changes).Readable := by
  have hrun (t : Transaction) (ht : t.current.Readable) :
      (changes.foldl Transaction.after t).current.Readable := by
    induction changes generalizing t with
    | nil => exact ht
    | cons change rest ih => exact ih _ (Transaction.readable_after ht change)
  exact hrun (.begin c) h

theorem readable_built (transactions : List (List CatalogChange)) : (built transactions).Readable := by
  have hrun (c : Catalog) (h : c.Readable) : (transactions.foldl Catalog.committed c).Readable := by
    induction transactions generalizing c with
    | nil => exact h
    | cons changes rest ih => exact ih _ (h.committed changes)
  exact hrun .empty readable_empty

end Catalog

end DedupArchive
