/-
  DedupArchive/Proofs/Catalog/Numbers.lean
  ========================================
  **Numbers come back as they were given.**

  An offset or a length arrives as a word of 64 bits and is stored as a signed
  number.  The upper half of the words would come out negative; no test of the
  library looks for them, and the rules of the tables are all that keeps them out.
  So a number is either refused or stored as itself, and every later answer that
  shows it shows the number that was passed.

  Whether there is an answer is another matter: a question fails at the first row
  that cannot be read, and the rules let such rows in.
-/
import DedupArchive.Proofs.Catalog.Transactions

namespace DedupArchive

/-! ### Chunks that are taken -/

def ChunkRecord.row (id : Int) (r : ChunkRecord) : ChunkRow :=
  ⟨.integer id, r.digest.cell, .integer r.offset, .integer r.length⟩

theorem ChunkRecord.toRecord_row (id : Int) (r : ChunkRecord) : (r.row id).toRecord = .ok r :=
  ChunkRow.toRecord_eq_ok_iff.mpr ⟨rfl, rfl, rfl⟩

namespace Catalog

variable {c c' : Catalog} {id : Int}

structure Takes (c : Catalog) (id : Int) (offset length : Nat) : Prop where
  offset_fits : offset < 2 ^ 63
  length_pos : 0 < length
  length_fits : length < 2 ^ 63
  archive : ∃ a ∈ c.archives, a.id = id
  place_free : ∀ r ∈ c.chunkRows id, r.offset.equals (.integer offset) = false

/-- A chunk is recorded as exactly the numbers passed, or refused. -/
theorem insertChunk_eq_ok_iff {digest : Digest} {offset length : UInt64} :
    c.insertChunk id digest offset length = .ok c' ↔ c.Takes id offset.toNat length.toNat ∧
      c' = { c with chunks := ChunkRecord.row id ⟨digest, offset.toNat, length.toNat⟩ :: c.chunks } := by
  constructor
  · intro hinsert
    obtain ⟨hadd, harchive⟩ := addChunk_of_insertChunk hinsert
    obtain ⟨⟨⟩, hrule, hadd⟩ := bind_eq_ok_iff.mp hadd
    obtain ⟨⟨⟩, hunique, heq⟩ := bind_eq_ok_iff.mp hadd
    cases heq
    obtain ⟨-, -, -, -, hoffset, hlength⟩ := ChunkRow.check_eq_ok_iff.mp hrule
    rw [atLeastZero_signedCell_iff] at hoffset
    rw [aboveZero_signedCell_iff] at hlength
    rw [signedCell_eq hoffset] at hunique ⊢
    rw [signedCell_eq hlength.2] at hunique ⊢
    refine ⟨⟨hoffset, hlength.1, hlength.2, harchive, ?_⟩, rfl⟩
    intro r hr
    have hapart := ChunkRow.checkUnique_eq_ok_iff.mp hunique r (mem_chunkRows.mp hr).1
    rw [(mem_chunkRows.mp hr).2, Bool.true_and] at hapart
    exact hapart
  · rintro ⟨htakes, rfl⟩
    have heq := @insertChunk_eq c id digest _ _ htakes.offset_fits htakes.length_fits htakes.length_pos
      (fun r hr howner => htakes.place_free r (mem_chunkRows.mpr ⟨hr, howner⟩)) htakes.archive
    rw [UInt64.ofNat_toNat, UInt64.ofNat_toNat] at heq
    exact heq

/-! ### Lengths that are recorded -/

def record (c : Catalog) (id : Int) (length : Nat) (digest : Digest) : List ArchiveRow :=
  c.archives.map fun r => if r.id = id then { r with length := .integer length, digest := digest.cell } else r

theorem finalize_eq_record (h : c.Lawful) (id : Int) {length : UInt64} (hfits : length.toNat < 2 ^ 63)
    (digest : Digest) :
    c.finalize id length digest = .ok { c with archives := c.record id length.toNat digest } := by
  unfold finalize
  rw [bind_eq_ok_iff]
  refine ⟨_, ?_, rfl⟩
  rw [mapM_eq_ok_iff, record, List.forall₂_map_right_iff, List.forall₂_same]
  intro r hr
  split
  · have hrule : ArchiveRow.check { r with length := signedCell length, digest := digest.cell } = .ok () := by
      rw [ArchiveRow.check_eq_ok_iff, atLeastZero_signedCell_iff]
      exact ⟨(ArchiveRow.check_eq_ok_iff.mp (h.archive_rules r hr)).1, hfits⟩
    rw [signedCell_eq hfits] at hrule ⊢
    simp [hrule]
  · rfl

theorem fits_of_finalize {length : UInt64} {digest : Digest} (hfinalize : c.finalize id length digest = .ok c')
    {a : ArchiveRow} (ha : a ∈ c.archives) (hid : a.id = id) : length.toNat < 2 ^ 63 := by
  obtain ⟨rows, hrows, -⟩ := bind_eq_ok_iff.mp hfinalize
  obtain ⟨row, -, hrow⟩ := exists_answer_of_mem hrows ha
  rw [if_pos hid] at hrow
  obtain ⟨⟨⟩, hrule, -⟩ := bind_eq_ok_iff.mp hrow
  exact atLeastZero_signedCell_iff.mp (ArchiveRow.check_eq_ok_iff.mp hrule).2

/-- Recorded length and digest are found by the name of the archive. -/
theorem archive?_of_finalize (h : c.Lawful) {length : UInt64} {digest : Digest}
    (hfinalize : c.finalize id length digest = .ok c') {a : ArchiveRow} (ha : a ∈ c.archives)
    (hid : a.id = id) {name : String} (hname : a.name = .text name) :
    c'.archive? name = .ok (some ⟨id, name, length.toNat, digest⟩) := by
  have hrecord := finalize_eq_record h id (fits_of_finalize hfinalize ha hid) digest
  have heq := Except.ok.inj (hfinalize.symm.trans hrecord)
  apply archive?_of_mem (h.finalize hfinalize) (a := ⟨id, name, length.toNat, digest⟩)
  rw [heq, record, List.mem_map]
  refine ⟨a, ha, ?_⟩
  rw [if_pos hid, ArchiveRecord.row, ← hname, ← hid]

/-! ### What stays until the archive is deleted -/

/-- The rows of an archive's chunks stay while the archive is not deleted. -/
theorem mem_chunkRows_of_allows {r : ChunkRow} {change : CatalogChange} (hr : r ∈ c.chunkRows id)
    (hspares : change ≠ .deleteArchive id) (hallows : c.Allows change c') : r ∈ c'.chunkRows id := by
  rw [mem_chunkRows] at hr ⊢
  refine ⟨?_, hr.2⟩
  cases hallows with
  | insertArchive hinsert =>
    obtain ⟨-, rfl⟩ := added_of_insertArchive hinsert
    exact hr.1
  | insertChunk hinsert =>
    obtain ⟨-, rfl⟩ := insertChunk_eq_ok_iff.mp hinsert
    exact List.mem_cons_of_mem _ hr.1
  | finalize hfinalize =>
    rw [(rows_of_finalize hfinalize).1]
    exact hr.1
  | deleteArchive other =>
    have hother : id ≠ other := fun heq => hspares (congrArg CatalogChange.deleteArchive heq.symm)
    refine mem_chunks_deleteArchive.mpr ⟨hr.1, ?_⟩
    rw [← Bool.not_eq_true]
    intro howner
    have howned := hr.2
    rw [Cell.equals_integer_iff] at howner howned
    rcases howned with heq | heq <;> simp [heq, hother] at howner

/-- A catalog some time after a chunk was recorded: the row is there, and rows that
    have come since can be read. -/
structure Keeps (start : Catalog) (r : ChunkRow) (c : Catalog) : Prop where
  lawful : c.Lawful
  there : r ∈ c.chunks
  rows : ∀ r' ∈ c.chunks, r' ∈ start.chunks ∨ ∃ record, r'.toRecord = .ok record

variable {start : Catalog} {chunk : ChunkRecord}

theorem Keeps.inserted (h : c.Lawful) {digest : Digest} {offset length : UInt64}
    (hinsert : c.insertChunk id digest offset length = .ok c') :
    Keeps c (ChunkRecord.row id ⟨digest, offset.toNat, length.toNat⟩) c' := by
  have hlawful := h.insertChunk hinsert
  obtain ⟨-, rfl⟩ := insertChunk_eq_ok_iff.mp hinsert
  refine ⟨hlawful, List.mem_cons_self, ?_⟩
  intro r' hr'
  rcases List.mem_cons.mp hr' with rfl | hr'
  · exact Or.inr ⟨_, ChunkRecord.toRecord_row id _⟩
  · exact Or.inl hr'

theorem rows_of_allows {change : CatalogChange} (hallows : c.Allows change c') {r : ChunkRow}
    (hr : r ∈ c'.chunks) : r ∈ c.chunks ∨ ∃ record, r.toRecord = .ok record := by
  cases hallows with
  | insertArchive hinsert =>
    obtain ⟨-, rfl⟩ := added_of_insertArchive hinsert
    exact Or.inl hr
  | insertChunk hinsert =>
    obtain ⟨-, rfl⟩ := insertChunk_eq_ok_iff.mp hinsert
    rcases List.mem_cons.mp hr with rfl | hr
    · exact Or.inr ⟨_, ChunkRecord.toRecord_row _ _⟩
    · exact Or.inl hr
  | finalize hfinalize =>
    rw [(rows_of_finalize hfinalize).1] at hr
    exact Or.inl hr
  | deleteArchive other => exact Or.inl (mem_chunks_deleteArchive.mp hr).1

/-- **One change.** -/
theorem Keeps.allows {change : CatalogChange} (h : Keeps start (chunk.row id) c)
    (hspares : change ≠ .deleteArchive id) (hallows : c.Allows change c') :
    Keeps start (chunk.row id) c' where
  lawful := h.lawful.allows hallows
  there := by
    have howned : chunk.row id ∈ c.chunkRows id := mem_chunkRows.mpr ⟨h.there, Cell.equals_self rfl⟩
    exact (mem_chunkRows.mp (mem_chunkRows_of_allows howned hspares hallows)).1
  rows r hr := by
    rcases rows_of_allows hallows hr with hold | hnew
    · exact h.rows r hold
    · exact Or.inr hnew

def Spares (id : Int) (calls : List CatalogCall) : Prop :=
  ∀ change, .change change ∈ calls → change ≠ .deleteArchive id

def later (t : Transaction) (calls : List CatalogCall) (sessions : List Session) : Catalog :=
  sessions.foldl afterSession (t.performAll calls).commit

theorem mem_chunkRows_later {t : Transaction} {r : ChunkRow} (hr : r ∈ t.current.chunkRows id)
    {calls : List CatalogCall} (hcalls : Spares id calls) {sessions : List Session}
    (hsessions : ∀ session ∈ sessions, session.commits = true → Spares id session.calls) :
    r ∈ (Catalog.later t calls sessions).chunkRows id := by
  refine foldl_afterSession_keeps (P := fun c => r ∈ c.chunkRows id) mem_chunkRows_of_allows ?_ hsessions
  exact Transaction.performAll_keeps mem_chunkRows_of_allows hr hcalls

/-- **All changes.** -/
theorem Keeps.later {t : Transaction} (h : Keeps start (chunk.row id) t.current)
    {calls : List CatalogCall} (hcalls : Spares id calls) {sessions : List Session}
    (hsessions : ∀ session ∈ sessions, session.commits = true → Spares id session.calls) :
    Keeps start (chunk.row id) (Catalog.later t calls sessions) := by
  apply foldl_afterSession_keeps Keeps.allows ?_ hsessions
  exact Transaction.performAll_keeps Keeps.allows h hcalls

/-! ### Answers that show the chunk -/

section Keeps

variable (h : Keeps start (chunk.row id) c)

include h

theorem Keeps.chunksOf (hreadable : ∀ r ∈ start.chunkRows id, ∃ row, r.toRecord = .ok row) :
    ∃ before behind, c.chunksOf id = .ok (before ++ chunk :: behind) ∧
      (∀ row ∈ before, row.offset < chunk.offset) ∧ ∀ row ∈ behind, chunk.offset < row.offset := by
  have hall : ∃ rows, c.chunksOf id = .ok rows := by
    apply exists_mapM_ok
    intro r hr
    rw [ChunkRow.byOffset, List.mem_mergeSort, mem_chunkRows] at hr
    rcases h.rows r hr.1 with hold | hnew
    · exact hreadable r (mem_chunkRows.mpr ⟨hold, hr.2⟩)
    · exact hnew
  obtain ⟨rows, hrows⟩ := hall
  have howner : (chunk.row id).archive.equals (.integer id) = true := Cell.equals_self rfl
  obtain ⟨row, hrow, hread⟩ := exists_chunkRecord hrows h.there howner
  cases hread.symm.trans (chunk.toRecord_row id)
  obtain ⟨before, behind, rfl⟩ := List.append_of_mem hrow
  have hascend := h.lawful.chunksOf_ascend hrows
  simp only [List.pairwise_append, List.pairwise_cons] at hascend
  obtain ⟨-, ⟨hbehind, -⟩, hbefore⟩ := hascend
  refine ⟨before, behind, hrows, ?_, hbehind⟩
  intro row hrow
  exact hbefore row hrow chunk List.mem_cons_self

theorem Keeps.referenced (hreadable : ∀ r ∈ start.chunks, ∃ (d : Digest) (n : Nat),
    r.digest = d.cell ∧ r.length = .integer n) :
    ∃ refs, c.referenced = .ok refs ∧ (chunk.digest, chunk.length) ∈ refs := by
  have hall : ∃ refs, c.referenced = .ok refs := by
    apply exists_referenced_of_cells
    intro r hr
    rcases h.rows r hr with hold | ⟨row, hread⟩
    · exact hreadable r hold
    · obtain ⟨hdigest, -, hlength⟩ := ChunkRow.toRecord_eq_ok_iff.mp hread
      exact ⟨_, _, hdigest, hlength⟩
  obtain ⟨refs, hrefs⟩ := hall
  exact ⟨refs, hrefs, mem_referenced hrefs h.there (chunk.toRecord_row id)⟩

end Keeps

end Catalog

/-! ### The calls -/

namespace Transaction

variable {t : Transaction} {step : Catalog → Except CatalogError Catalog}

theorem change_eq_ok_iff : (t.change step).1 = .ok () ↔ ∃ c, step t.current = .ok c := by
  rcases t.change_cases step with ⟨c, hstep, heq⟩ | ⟨e, hstep, heq⟩ <;> simp [heq, hstep]

theorem change_of_ok {c : Catalog} (h : step t.current = .ok c) :
    (t.change step).2 = { t with current := c } := by
  rw [change, h]

theorem change_of_ne_ok (h : (t.change step).1 ≠ .ok ()) : (t.change step).2 = t := by
  rcases t.change_cases step with ⟨c, -, heq⟩ | ⟨e, -, heq⟩
  · rw [heq] at h
    exact absurd rfl h
  · rw [heq]

/-- **Numbers never wrap.**  A chunk is taken exactly if its numbers fit, its archive
    is there and its place is free; it is refused without a trace, or it is stored as
    passed and stays until the archive is deleted.  Then the archive's chunks show it
    between those of smaller and those of larger offsets, and the blobs referred to
    show it too, if the rows that were there before can be read; a row of the archive
    that cannot keeps all its chunks from being shown.  Length and digest
    of an archive are recorded exactly if the length fits, and then found by its name. -/
theorem numbers_never_wrap (h : t.current.Lawful) (id : Int) (digest : Digest) (offset length : UInt64) :
    ((t.insertChunk id digest offset length).1 = .ok () ↔
      t.current.Takes id offset.toNat length.toNat) ∧
    ((t.insertChunk id digest offset length).1 ≠ .ok () → (t.insertChunk id digest offset length).2 = t) ∧
    ((t.insertChunk id digest offset length).1 = .ok () →
      ∀ (calls : List CatalogCall) (sessions : List Session), Catalog.Spares id calls →
      (∀ session ∈ sessions, session.commits = true → Catalog.Spares id session.calls) →
      let later := Catalog.later (t.insertChunk id digest offset length).2 calls sessions
      let chunk : ChunkRecord := ⟨digest, offset.toNat, length.toNat⟩
      chunk.row id ∈ later.chunks ∧
      ((∀ r ∈ t.current.chunkRows id, ∃ row, r.toRecord = .ok row) →
        ∃ before behind, later.chunksOf id = .ok (before ++ chunk :: behind) ∧
          (∀ row ∈ before, row.offset < chunk.offset) ∧ ∀ row ∈ behind, chunk.offset < row.offset) ∧
      ((∃ r ∈ t.current.chunkRows id, ∀ row, r.toRecord ≠ .ok row) → ∀ rows, later.chunksOf id ≠ .ok rows) ∧
      ((∀ r ∈ t.current.chunks, ∃ (d : Digest) (n : Nat), r.digest = d.cell ∧ r.length = .integer n) →
        ∃ refs, later.referenced = .ok refs ∧ (digest, length.toNat) ∈ refs)) ∧
    ∀ a ∈ t.current.archives, a.id = id →
      ((t.finalize id length digest).1 = .ok () ↔ length.toNat < 2 ^ 63) ∧
      ((t.finalize id length digest).1 ≠ .ok () → (t.finalize id length digest).2 = t) ∧
      ((t.finalize id length digest).1 = .ok () → ∀ name, a.name = .text name →
        (t.finalize id length digest).2.commit.archive? name =
          .ok (some ⟨id, name, length.toNat, digest⟩)) := by
  refine ⟨?_, change_of_ne_ok, ?_, ?_⟩
  · simp only [insertChunk, change_eq_ok_iff, Catalog.insertChunk_eq_ok_iff, exists_and_left,
      exists_eq, and_true]
  · intro hok calls sessions hcalls hsessions later chunk
    obtain ⟨c, hinsert⟩ := change_eq_ok_iff.mp hok
    have hkeeps : Catalog.Keeps t.current (chunk.row id) later := by
      apply Catalog.Keeps.later ?_ hcalls hsessions
      rw [insertChunk, change_of_ok hinsert]
      exact .inserted h hinsert
    refine ⟨hkeeps.there, hkeeps.chunksOf, ?_, hkeeps.referenced⟩
    rintro ⟨r, hr, hunreadable⟩ rows hrows
    have hold : r ∈ (t.insertChunk id digest offset length).2.current.chunkRows id := by
      have hspares : CatalogChange.insertChunk id digest offset length ≠ .deleteArchive id := by
        intro heq
        cases heq
      rw [insertChunk, change_of_ok hinsert]
      exact Catalog.mem_chunkRows_of_allows hr hspares (.insertChunk hinsert)
    have hlater := Catalog.mem_chunkRows.mp (Catalog.mem_chunkRows_later hold hcalls hsessions)
    obtain ⟨row, -, hread⟩ := Catalog.exists_chunkRecord hrows hlater.1 hlater.2
    exact hunreadable row hread
  · intro a ha hid
    refine ⟨?_, change_of_ne_ok, ?_⟩
    · rw [finalize, change_eq_ok_iff]
      constructor
      · rintro ⟨c, hfinalize⟩
        exact Catalog.fits_of_finalize hfinalize ha hid
      · intro hfits
        exact ⟨_, Catalog.finalize_eq_record h id hfits digest⟩
    · intro hok name hname
      obtain ⟨c, hfinalize⟩ := change_eq_ok_iff.mp hok
      rw [finalize, change_of_ok hfinalize]
      exact Catalog.archive?_of_finalize h hfinalize ha hid hname

/-- The largest numbers, in an archive that gets another chunk and survives a
    transaction which would delete it. -/
theorem numbers_never_wrap_largest : ∃ before behind,
    (Catalog.later
      ((Transaction.begin ⟨[⟨1, .text "a", .null, .null⟩], []⟩).insertChunk 1 (Digest.of [7])
        9223372036854775807 9223372036854775807).2
      [.change (.insertChunk 1 (Digest.of [8]) 0 1)] [⟨[.change (.deleteArchive 1)], false⟩]).chunksOf 1 =
    .ok (before ++ ⟨Digest.of [7], 9223372036854775807, 9223372036854775807⟩ :: behind) := by
  have hlawful : (Transaction.begin ⟨[⟨1, .text "a", .null, .null⟩], []⟩).current.Lawful := by
    constructor <;>
      simp [Transaction.begin, ArchiveRow.check_eq_ok_iff, Cell.isNull, Cell.atLeastZero, Cell.isWord]
  obtain ⟨htaken, -, hkept, -⟩ := numbers_never_wrap hlawful 1 (Digest.of [7])
    9223372036854775807 9223372036854775807
  have hok := htaken.mpr ⟨by decide, by decide, by decide, ⟨_, List.mem_cons_self, rfl⟩,
    by simp [Catalog.chunkRows, Transaction.begin]⟩
  obtain ⟨-, hchunks, -⟩ := hkept hok [.change (.insertChunk 1 (Digest.of [8]) 0 1)]
    [⟨[.change (.deleteArchive 1)], false⟩] (by simp [Catalog.Spares]) (by simp)
  obtain ⟨before, behind, hrows, -⟩ := hchunks (by simp [Catalog.chunkRows, Transaction.begin])
  exact ⟨before, behind, hrows⟩

end Transaction

namespace Catalog

def shortRow : ChunkRow := ⟨.integer 1, .blob [1, 2, 3], .integer 5, .integer 1⟩

def withShortRow : Catalog := ⟨[⟨1, .text "a", .null, .null⟩], [shortRow]⟩

/-- The rules let a row in that cannot be read.  A chunk is recorded beside it, and
    then neither question shows the chunk. -/
theorem insertChunk_beside_unreadable : withShortRow.Lawful ∧ withShortRow.Linked ∧
    ∃ c, withShortRow.insertChunk 1 (Digest.of [7]) 0 1 = .ok c ∧
      (∀ rows, c.chunksOf 1 ≠ .ok rows) ∧ ∀ refs, c.referenced ≠ .ok refs := by
  have hlawful : withShortRow.Lawful := by
    constructor <;> simp [withShortRow, shortRow, ArchiveRow.check_eq_ok_iff, ChunkRow.check_eq_ok_iff,
      Cell.isNull, Cell.atLeastZero, Cell.aboveZero, Cell.isWord, Cell.minInteger, Cell.maxInteger, Cell.le]
  have hlinked : withShortRow.Linked := by
    simp [Linked, withShortRow, shortRow, Cell.equals, Cell.isNull, Cell.same, Cell.le]
  have htakes : withShortRow.Takes 1 0 1 := by
    constructor <;> simp [withShortRow, shortRow, chunkRows, Cell.equals, Cell.same, Cell.le]
  have hinsert : withShortRow.insertChunk 1 (Digest.of [7]) 0 1 = .ok _ :=
    insertChunk_eq_ok_iff.mpr ⟨htakes, rfl⟩
  have hshort (d : Digest) : shortRow.digest ≠ d.cell := by
    intro heq
    have hlength := congrArg List.length (Cell.blob.inj heq)
    rw [d.length_bytes] at hlength
    cases hlength
  refine ⟨hlawful, hlinked, _, hinsert, ?_, ?_⟩
  · intro rows hrows
    obtain ⟨row, -, hread⟩ := exists_chunkRecord hrows (r := shortRow)
      (List.mem_cons_of_mem _ List.mem_cons_self) (Cell.equals_self rfl)
    exact hshort row.digest (ChunkRow.toRecord_eq_ok_iff.mp hread).1
  · intro refs hrefs
    obtain ⟨d, n, -, hread, -⟩ := exists_reference hrefs (r := shortRow)
      (List.mem_cons_of_mem _ List.mem_cons_self)
    exact hshort d hread

end Catalog

end DedupArchive
