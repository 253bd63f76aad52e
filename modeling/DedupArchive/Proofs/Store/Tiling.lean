/-
  DedupArchive/Proofs/Store/Tiling.lean
  =====================================
  **Chunks that lie side by side.**

  Chunk records tile a byte string when they follow one another without a gap
  and the blob of each is there and as long as recorded.  The bytes that they
  tile are then fixed.  This one relation is what loading walks along, what the
  audit looks at from several sides, and what storing sets up.
-/
import DedupArchive.Proofs.Blobs.Faithful
import DedupArchive.Proofs.Catalog.Questions
import DedupArchive.Store.Audit

namespace DedupArchive

inductive Tiles (find : Digest → Option Bytes) : Nat → List ChunkRecord → Bytes → Prop
  | nil (position : Nat) : Tiles find position [] []
  | cons {position : Nat} {row : ChunkRecord} {rest : List ChunkRecord} {data content : Bytes}
      (offset : row.offset = position) (found : find row.digest = some data)
      (length : data.length = row.length) (rest_tiles : Tiles find (position + data.length) rest content) :
      Tiles find position (row :: rest) (data ++ content)

/-- The catalog and the blobs hold an archive of these bytes. -/
structure Catalog.Holds (c : Catalog) (find : Digest → Option Bytes) (a : ArchiveRecord)
    (content : Bytes) : Prop where
  tiled : ∃ rows, c.chunksOf a.id = .ok rows ∧ Tiles find 0 rows content
  digest : Digest.of content = a.digest
  length : content.length = a.length

namespace Tiles

variable {find find' : Digest → Option Bytes} {position : Nat} {rows : List ChunkRecord}
  {content : Bytes}

/-- The bytes are fixed. -/
theorem unique (h : Tiles find position rows content) {content' : Bytes}
    (h' : Tiles find position rows content') : content = content' := by
  induction h generalizing content' with
  | nil position =>
    cases h'
    rfl
  | cons hoffset hfound hlength _ ih =>
    cases h' with
    | cons hoffset' hfound' hlength' hrest' =>
      rw [hfound, Option.some.injEq] at hfound'
      subst hfound'
      rw [ih hrest']

theorem exists_blob (h : Tiles find position rows content) {row : ChunkRecord} (hrow : row ∈ rows) :
    ∃ data, find row.digest = some data ∧ data.length = row.length := by
  induction h with
  | nil position => cases hrow
  | cons hoffset hfound hlength _ ih =>
    rcases List.mem_cons.mp hrow with rfl | hrow
    · exact ⟨_, hfound, hlength⟩
    · exact ih hrow

/-- Only the blobs of the rows matter. -/
theorem congr (h : Tiles find position rows content)
    (hfind : ∀ row ∈ rows, find' row.digest = find row.digest) : Tiles find' position rows content := by
  induction h with
  | nil position => exact .nil position
  | cons hoffset hfound hlength _ ih =>
    refine .cons hoffset ?_ hlength (ih fun row hrow => hfind row (List.mem_cons_of_mem _ hrow))
    rw [hfind _ List.mem_cons_self, hfound]

/-- The same rows tile the same bytes with the same blobs only. -/
theorem find_eq (h : Tiles find position rows content) {content' : Bytes}
    (h' : Tiles find' position rows content') (heq : content' = content) :
    ∀ row ∈ rows, find' row.digest = find row.digest := by
  induction h generalizing content' with
  | nil position => exact fun row hrow => absurd hrow List.not_mem_nil
  | cons hoffset hfound hlength _ ih =>
    cases h' with
    | cons hoffset' hfound' hlength' hrest' =>
      -- every blob is as long as its row says, so both are split at the same places
      obtain ⟨rfl, hrest⟩ := List.append_inj heq (hlength'.trans hlength.symm)
      intro row hrow
      rcases List.mem_cons.mp hrow with rfl | hrow
      · rw [hfound', hfound]
      · exact ih hrest' hrest row hrow

theorem sum_lengths (h : Tiles find position rows content) :
    (rows.map (·.length)).sum = content.length := by
  induction h with
  | nil position => rfl
  | cons hoffset hfound hlength _ ih =>
    rw [List.map_cons, List.sum_cons, ih, List.length_append, hlength]

/-! ### Coverage -/

variable (name : String)

/-- Where rows leave no gap and do not overlap, and their blobs are as long as
    recorded, they tile something. -/
theorem of_coverage (hcoverage : Store.coverage name position rows = [])
    (hbounds : ∀ row ∈ rows, row.offset < 2 ^ 63 ∧ row.length < 2 ^ 63)
    (hblobs : ∀ row ∈ rows, ∃ data, find row.digest = some data ∧ data.length = row.length) :
    ∃ content, Tiles find position rows content := by
  induction rows generalizing position with
  | nil => exact ⟨[], .nil position⟩
  | cons row rest ih =>
    rw [Store.coverage] at hcoverage
    split at hcoverage
    · cases hcoverage
    · split at hcoverage
      · cases hcoverage
      · obtain ⟨data, hfound, hlength⟩ := hblobs row List.mem_cons_self
        obtain ⟨hoffset, hsize⟩ := hbounds row List.mem_cons_self
        -- both numbers are far below the largest word, so the end of the row is exact
        have hlast : row.last = position + data.length := by
          rw [ChunkRecord.last, maxWord]
          omega
        rw [hlast] at hcoverage
        obtain ⟨content, hrest⟩ := ih hcoverage
          (fun r hr => hbounds r (List.mem_cons_of_mem row hr))
          (fun r hr => hblobs r (List.mem_cons_of_mem row hr))
        exact ⟨data ++ content, .cons (by omega) hfound hlength hrest⟩

/-- Rows that tile something leave no gap and do not overlap. -/
theorem coverage_eq_nil (h : Tiles find position rows content)
    (hbounds : ∀ row ∈ rows, row.offset < 2 ^ 63 ∧ row.length < 2 ^ 63) :
    Store.coverage name position rows = [] := by
  induction h with
  | nil position => rfl
  | @cons position row rest data content hoffset hfound hlength _ ih =>
    have hrow := hbounds row List.mem_cons_self
    have hlast : row.last = position + data.length := by
      rw [ChunkRecord.last, maxWord]
      omega
    rw [Store.coverage, if_neg (by omega), if_neg (by omega), hlast]
    exact ih fun r hr => hbounds r (List.mem_cons_of_mem row hr)

/-! ### Putting an archive together -/

section Store

variable {σ : Type} [BlobStore σ] {s : Store σ}

theorem reassemble (h : Tiles (BlobStore.find s.blobs) position rows content)
    (whole : Digest.Running) :
    s.reassemble name whole rows = .ok (whole.feed content).digest := by
  induction h generalizing whole with
  | nil position => rfl
  | cons hoffset hfound hlength _ ih =>
    rw [Store.reassemble, BlobStore.find_eq_some_iff.mp hfound]
    show s.reassemble name (whole.feed _) _ = _
    rw [ih, Digest.Running.feed_append]

end Store

end Tiles

end DedupArchive
