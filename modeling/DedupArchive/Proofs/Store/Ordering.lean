/-
  DedupArchive/Proofs/Store/Ordering.lean
  =======================================
  **Nothing depends on the order in which things were written.**

  A store is its rows and its blobs.  Whoever asks sees neither in the order of
  their coming: the catalog sorts its rows for every answer, and blobs are looked
  up by their digests.  So two stores that hold the same, be it one in memory and
  one in a directory, give the same answers, load the same bytes and are audited
  with the same findings.
-/
import DedupArchive.Proofs.Blobs.Requests
import DedupArchive.Proofs.Catalog.Numbers
import DedupArchive.Proofs.Catalog.Ordering
import DedupArchive.Proofs.Store.Releasing

namespace DedupArchive

/-! ### Blobs that are read alike -/

section Blobs

variable {σ τ : Type} [BlobStore σ] [FaithfulBlobs σ] [TransparentBlobs σ] [BlobStore τ]
  [FaithfulBlobs τ] [TransparentBlobs τ] {blobs : σ} {others : τ}

theorem SameBlobs.get_eq (h : SameBlobs blobs others) (d : Digest) :
    BlobStore.get blobs d = BlobStore.get others d :=
  BlobAnswer.bytes.inj (h.perform (.get d)).1

theorem SameBlobs.digests_eq (h : SameBlobs blobs others) :
    BlobStore.digests blobs = BlobStore.digests others :=
  BlobAnswer.listed.inj (h.perform .digests).1

end Blobs

namespace Store

structure SameContents {σ τ : Type} [BlobStore σ] [BlobStore τ] (s : Store σ) (t : Store τ) : Prop where
  rows : s.catalog.SameRows t.catalog
  settled : s.catalog.Settled
  get : ∀ d, BlobStore.get s.blobs d = BlobStore.get t.blobs d
  digests : BlobStore.digests s.blobs = BlobStore.digests t.blobs

namespace SameContents

variable {σ τ : Type} [BlobStore σ] [BlobStore τ] {s : Store σ} {t : Store τ} (h : s.SameContents t)

include h

theorem load_eq (name : String) (sink : Sink) : s.load name sink = t.load name sink := by
  apply load_congr (h.rows.archive?_eq name)
  intro a _
  exact ⟨h.rows.chunksOf_eq a.id, fun _ _ row _ => h.get row.digest⟩

/-! ### The steps of an audit -/

theorem findUnfinished_eq : s.findUnfinished = t.findUnfinished := by
  simp only [findUnfinished, h.rows.unfinished_eq]

theorem findUncovered_eq (archives : List ArchiveRecord) : s.findUncovered archives = t.findUncovered archives := by
  simp only [findUncovered, h.rows.chunksOf_eq]

theorem reassemble_eq (name : String) (whole : Digest.Running) (rows : List ChunkRecord) :
    s.reassemble name whole rows = t.reassemble name whole rows := by
  induction rows generalizing whole with
  | nil => rfl
  | cons row rest ih => simp only [reassemble, h.get, ih]

theorem findMismatched_eq (archives : List ArchiveRecord) :
    s.findMismatched archives = t.findMismatched archives := by
  simp only [findMismatched, h.rows.chunksOf_eq, h.reassemble_eq]

theorem findMislength_eq : s.findMislength = t.findMislength := by
  simp only [findMislength, h.rows.totals_eq]

section Referenced

variable (hreferenced : s.catalog.referenced = t.catalog.referenced)

include hreferenced

theorem findOrphans_eq : s.findOrphans = t.findOrphans := by
  simp only [findOrphans, hreferenced, h.digests]

theorem findDamaged_eq : s.findDamaged = t.findDamaged := by
  simp only [findDamaged, checkBlob, hreferenced, h.get]

theorem audit_eq : s.audit = t.audit := by
  simp only [audit, h.rows.completed_eq, h.findUnfinished_eq, h.findUncovered_eq, h.findOrphans_eq hreferenced,
    h.findDamaged_eq hreferenced, h.findMismatched_eq, h.findMislength_eq]

end Referenced

/-- An audit that cannot read which blobs are in use fails by what the catalog says. -/
theorem audit_sameOrFail :
    SameOrFail (fun e => ∃ cause, e = .catalog cause ∧ CatalogError.NamesNumber cause) s.audit t.audit := by
  rcases h.rows.referenced_sameOrFail h.settled with heq | ⟨e, e', hfail, hfail', he, he'⟩
  · rw [h.audit_eq heq]
    exact SameOrFail.refl _
  · have horphans : s.findOrphans = .error (.catalog e) := by
      rw [findOrphans, hfail]
      rfl
    have horphans' : t.findOrphans = .error (.catalog e') := by
      rw [findOrphans, hfail']
      rfl
    simp only [audit, h.rows.completed_eq, h.findUnfinished_eq, h.findUncovered_eq, horphans, horphans']
    -- the steps before agree, and the next one fails
    refine (SameOrFail.refl _).bind fun archives => (SameOrFail.refl _).bind fun unfinished => ?_
    refine (SameOrFail.refl _).bind fun uncovered => ?_
    exact Or.inr ⟨_, _, rfl, rfl, ⟨e, rfl, he⟩, e', rfl, he'⟩

end SameContents

variable {σ τ : Type} [BlobStore σ] [FaithfulBlobs σ] [TransparentBlobs σ] [BlobStore τ]
  [FaithfulBlobs τ] [TransparentBlobs τ]

/-- **Order does not show.**  Two stores with the same rows and the same bytes under
    every digest, written in any order, answer every question alike, load the same,
    and find the same.  The two questions about all blobs that are referred to make
    one exception: where one number stands as a digest in both its forms they fail,
    and may name either form. -/
theorem order_unobservable {s : Store σ} {t : Store τ} (hrows : s.catalog.SameRows t.catalog)
    (hsettled : s.catalog.Settled) (hblobs : SameBlobs s.blobs t.blobs) :
    (∀ name, s.catalog.archive? name = t.catalog.archive? name) ∧
    (∀ name, s.catalog.archiveId? name = t.catalog.archiveId? name) ∧
    s.catalog.completed = t.catalog.completed ∧
    s.catalog.archiveNames = t.catalog.archiveNames ∧
    s.catalog.unfinished = t.catalog.unfinished ∧
    (∀ id, s.catalog.chunksOf id = t.catalog.chunksOf id) ∧
    s.catalog.totals = t.catalog.totals ∧
    (∀ d, s.catalog.isReferenced d = t.catalog.isReferenced d) ∧
    (∀ name sink, s.load name sink = t.load name sink) ∧
    (s.catalog.OneForm → s.catalog.referenced = t.catalog.referenced ∧ s.audit = t.audit) ∧
    SameOrFail CatalogError.NamesNumber s.catalog.referenced t.catalog.referenced ∧
    SameOrFail (fun e => ∃ cause, e = .catalog cause ∧ CatalogError.NamesNumber cause) s.audit t.audit := by
  have hsame : s.SameContents t := ⟨hrows, hsettled, hblobs.get_eq, hblobs.digests_eq⟩
  refine ⟨hrows.archive?_eq, hrows.archiveId?_eq, hrows.completed_eq, hrows.archiveNames_eq,
    hrows.unfinished_eq, hrows.chunksOf_eq, hrows.totals_eq, hrows.isReferenced_eq, hsame.load_eq, ?_,
    hrows.referenced_sameOrFail hsettled, hsame.audit_sameOrFail⟩
  intro hform
  have hreferenced := hrows.referenced_eq hsettled hform
  exact ⟨hreferenced, hsame.audit_eq hreferenced⟩

def twoChunks (reversed : Bool) : Store MemoryBlobs where
  catalog.archives := [⟨1, .text "a", .integer 2, (Digest.of [6, 7]).cell⟩]
  catalog.chunks :=
    let rows := [ChunkRecord.row 1 ⟨Digest.of [6], 0, 1⟩, ChunkRecord.row 1 ⟨Digest.of [7], 1, 1⟩]
    if reversed then rows.reverse else rows
  blobs :=
    if reversed then ((MemoryBlobs.empty.put (Digest.of [7]) [7]).2.put (Digest.of [6]) [6]).2
    else ((MemoryBlobs.empty.put (Digest.of [6]) [6]).2.put (Digest.of [7]) [7]).2
  params := .standard
  home := none

theorem sameRows_twoChunks : (twoChunks false).catalog.SameRows (twoChunks true).catalog := by
  have hlawful (reversed : Bool) : (twoChunks reversed).catalog.Lawful := by
    cases reversed <;> constructor <;>
      simp [twoChunks, ChunkRecord.row, ArchiveRow.check_eq_ok_iff, ChunkRow.check_eq_ok_iff, Digest.cell,
        Cell.isNull, Cell.atLeastZero_integer_iff, Cell.aboveZero_integer_iff, Cell.isWord_integer_iff,
        Cell.equals, Cell.same, Cell.le]
  refine ⟨hlawful false, hlawful true, ?_, ?_⟩
  · simp [twoChunks]
  · simp [twoChunks, or_comm]

theorem sameBlobs_twoChunks : SameBlobs (twoChunks false).blobs (twoChunks true).blobs := by
  refine ⟨trivial, trivial, ?_⟩
  intro d
  have hput (m : MemoryBlobs) (e : Digest) (data : Bytes) : BlobStore.find (m.put e data).2 d =
      (BlobStore.find m d).or (if e = d then some data else none) := by
    obtain ⟨new, m', hput, -, hfind⟩ := @FaithfulBlobs.put_spec _ _ _ m e data trivial
    have hafter : (m.put e data).2 = m' := congrArg Prod.snd hput
    rw [hafter, hfind]
  simp only [twoChunks, if_true, Bool.false_eq_true, if_false, hput, MemoryBlobs.find_empty, Option.none_or]
  split
  · rename_i hsix
    rw [if_neg (hsix ▸ digest_flippedBit.symm)]
    rfl
  · rw [Option.none_or, Option.or_none]

theorem readable_twoChunks : (twoChunks false).catalog.Readable := by
  constructor
  · intro r hr
    exact Or.inr ⟨⟨1, "a", 2, Digest.of [6, 7]⟩, List.mem_singleton.mp hr⟩
  · intro r hr
    simp only [twoChunks, Bool.false_eq_true, if_false, List.mem_cons, List.not_mem_nil, or_false] at hr
    rcases hr with rfl | rfl
    · exact ⟨_, ChunkRecord.toRecord_row _ _⟩
    · exact ⟨_, ChunkRecord.toRecord_row _ _⟩

theorem order_unobservable_twoChunks :
    (∀ sink, (twoChunks false).load "a" sink = (twoChunks true).load "a" sink) ∧
      (twoChunks false).audit = (twoChunks true).audit := by
  have hsettled : (twoChunks false).catalog.Settled := by
    simp [Catalog.Settled, twoChunks, ChunkRecord.row]
  obtain ⟨-, -, -, -, -, -, -, -, hload, hsame, -⟩ :=
    order_unobservable sameRows_twoChunks hsettled sameBlobs_twoChunks
  exact ⟨hload "a", (hsame (Catalog.oneForm_of_readable readable_twoChunks)).2⟩

end Store

namespace Catalog

def twelves (reversed : Bool) : Catalog where
  archives := [⟨1, .text "a", .null, .null⟩]
  chunks :=
    let rows := [⟨.integer 1, .real 12, .integer 1, .integer 1⟩, ⟨.integer 1, .integer 12, .integer 0, .integer 1⟩]
    if reversed then rows.reverse else rows

theorem referenced_eq_of_sorted {c : Catalog} {digest : Cell} {x : StorageClass} {rest : List (Cell × Cell)}
    (hpairs : (c.chunks.reverse.map fun r => (r.digest, r.length)) = (digest, .integer 1) :: rest)
    (hsorted : ((digest, .integer 1) :: rest).Pairwise fun a b => ChunkRow.blobLE a b = true)
    (hfail : digest.toDigest 0 "digest" = .error (.wrongClass 0 "digest" x)) :
    c.referenced = .error (.wrongClass 0 "digest" x) := by
  rw [referenced, hpairs, List.mergeSort_of_pairwise hsorted, firstOfRuns, List.mapM_cons]
  simp only [hfail]
  rfl

/-- Which form of a number is named where a digest should be depends on the order. -/
theorem referenced_shows_order : (twelves false).SameRows (twelves true) ∧ (twelves false).Linked ∧
    (twelves false).Settled ∧
    (twelves false).referenced = .error (.wrongClass 0 "digest" .integer) ∧
    (twelves true).referenced = .error (.wrongClass 0 "digest" .real) := by
  have hlawful (reversed : Bool) : (twelves reversed).Lawful := by
    cases reversed <;> constructor <;>
      simp [twelves, ArchiveRow.check_eq_ok_iff, ChunkRow.check_eq_ok_iff, Cell.isNull, Cell.atLeastZero,
        Cell.aboveZero, Cell.isWord, Cell.minInteger, Cell.maxInteger, Cell.equals, Cell.same, Cell.le]
  refine ⟨⟨hlawful false, hlawful true, ?_, ?_⟩, ?_, ?_, ?_, ?_⟩
  · simp [twelves]
  · simp [twelves, or_comm]
  · simp [Linked, twelves, Cell.equals, Cell.isNull, Cell.same, Cell.le]
  · simp [Settled, twelves]
  · apply referenced_eq_of_sorted rfl ?_ rfl
    simp [ChunkRow.blobLE, Cell.same, Cell.le]
  · apply referenced_eq_of_sorted rfl ?_ rfl
    simp [ChunkRow.blobLE, Cell.same, Cell.le]

end Catalog

end DedupArchive
