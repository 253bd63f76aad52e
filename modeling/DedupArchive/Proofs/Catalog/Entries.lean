/-
  DedupArchive/Proofs/Catalog/Entries.lean
  ========================================
  **A catalog without its row ids.**

  Row ids tie chunks to archives and show nowhere else.  Without them a catalog is
  a list of entries, each with name, length, digest and chunks.  To enter an
  archive is then to put an entry in front, to delete one is to filter by its
  name, and it does not matter which ids the rows got.
-/
import DedupArchive.Proofs.Catalog.Growth
import DedupArchive.Proofs.Catalog.Removal

namespace DedupArchive

/-- An archive without its id; a chunk is its digest, its offset and its length. -/
structure Catalog.Entry where
  name : Cell
  length : Cell
  digest : Cell
  chunks : List (Cell × Cell × Cell)
deriving DecidableEq

def ChunkRow.place (r : ChunkRow) : Cell × Cell × Cell := (r.digest, r.offset, r.length)

namespace Catalog

def entryOf (c : Catalog) (r : ArchiveRow) : Entry :=
  ⟨r.name, r.length, r.digest, (ChunkRow.byOffset (c.chunkRows r.id)).map ChunkRow.place⟩

def entries (c : Catalog) : List Entry := c.archives.map c.entryOf

def Uses (c : Catalog) (id : Int) (d : Digest) : Prop := ∃ r ∈ c.chunkRows id, r.digest = d.cell

variable {c : Catalog}

/-! ### One archive more -/

theorem map_place_layout (id id' : Int) (position : Nat) (parts : List Bytes) :
    (layout id position parts).map ChunkRow.place = (layout id' position parts).map ChunkRow.place := by
  induction parts generalizing position with
  | nil => rfl
  | cons data rest ih =>
    unfold layout
    simp only [List.map_cons, ih, ChunkRow.place]

def entryOfParts (a : ArchiveRecord) (parts : List Bytes) : Entry :=
  ⟨.text a.name, .integer a.length, a.digest.cell, (layout 0 0 parts).map ChunkRow.place⟩

section Enter

variable {a : ArchiveRecord} {parts : List Bytes}

theorem entries_enter (hadmits : c.Admits a parts) :
    (c.enter a parts).entries = entryOfParts a parts :: c.entries := by
  have hnew : (c.enter a parts).entryOf a.row = entryOfParts a parts := by
    unfold entryOf entryOfParts
    rw [map_place_layout 0 a.id, ← byOffset_enter hadmits]
    rfl
  have hold : c.archives.map (c.enter a parts).entryOf = c.entries := by
    apply List.map_congr_left
    intro r hr
    unfold entryOf
    rw [chunkRows_enter_of_ne (hadmits.id_new r hr).symm]
  have hrows : (c.enter a parts).archives = a.row :: c.archives := rfl
  rw [entries, hrows, List.map_cons, hnew, hold]

theorem archiveId?_enter_of_ne {name : String} (hname : a.name ≠ name) :
    (c.enter a parts).archiveId? name = c.archiveId? name := by
  have hrows : (c.enter a parts).archives = a.row :: c.archives := rfl
  have hother : a.row.name.equals (.text name) = false := by
    rw [← Bool.not_eq_true, Cell.equals_text_iff]
    intro heq
    exact hname (Cell.text.inj heq)
  simp only [archiveId?, hrows, List.find?_cons, hother]

theorem archiveDigests_enter_of_ne {id : Int} (hid : a.id ≠ id) :
    (c.enter a parts).archiveDigests id = c.archiveDigests id := by
  simp only [archiveDigests, chunkRows_enter_of_ne hid]

theorem uses_enter_of_ne {id : Int} (hid : a.id ≠ id) {d : Digest} :
    (c.enter a parts).Uses id d ↔ c.Uses id d := by
  unfold Uses
  rw [chunkRows_enter_of_ne hid]

/-- An archive may be deleted before another is entered. -/
theorem deleteArchive_enter {id : Int} (hid : a.id ≠ id) :
    (c.enter a parts).deleteArchive id = (c.deleteArchive id).enter a parts := by
  have hkept : (layout a.id 0 parts).reverse.filter (fun r => !r.archive.equals (.integer id)) =
      (layout a.id 0 parts).reverse := by
    rw [List.filter_eq_self]
    intro r hr
    obtain ⟨data, -, offset, -, -, rfl⟩ := exists_of_mem_layout (List.mem_reverse.mp hr)
    rw [Bool.not_eq_true', ← Bool.not_eq_true, Cell.equals_integer_iff]
    simpa using hid
  have hrow : (a.row.id != id) = true := bne_iff_ne.mpr hid
  simp only [deleteArchive, enter, List.filter_cons, List.filter_append, hkept, hrow, if_true]

end Enter

/-! ### One archive less -/

section Delete

variable {name : String} {id : Int}

theorem entries_deleteArchive (h : c.Lawful) (hid : c.archiveId? name = some id) :
    (c.deleteArchive id).entries = c.entries.filter fun e => e.name ≠ .text name := by
  obtain ⟨row, hrow, hname, rfl⟩ := exists_mem_of_archiveId? hid
  have hchunks : (c.deleteArchive row.id).archives.map (c.deleteArchive row.id).entryOf =
      (c.deleteArchive row.id).archives.map c.entryOf := by
    apply List.map_congr_left
    intro r hr
    unfold entryOf
    rw [chunkRows_deleteArchive_of_ne (mem_archives_deleteArchive.mp hr).2]
  rw [entries, hchunks, entries, List.filter_map,
    archives_deleteArchive h.ids_nodup hrow h.names_nodup, hname]
  rfl

theorem archiveId?_deleteArchive_of_ne (h : c.Lawful) (hid : c.archiveId? name = some id)
    {other : String} (hother : other ≠ name) :
    (c.deleteArchive id).archiveId? other = c.archiveId? other := by
  obtain ⟨row, hrow, hname, rfl⟩ := exists_mem_of_archiveId? hid
  have hmatch : row.name.equals (.text other) = false := by
    rw [← Bool.not_eq_true, Cell.equals_text_iff, hname]
    exact fun heq => hother (Cell.text.inj heq).symm
  rw [archiveId?, find?_deleteArchive h.ids_nodup hrow hmatch, archiveId?]

theorem archiveDigests_deleteArchive_of_ne {other : Int} (hother : other ≠ id) :
    (c.deleteArchive id).archiveDigests other = c.archiveDigests other := by
  simp only [archiveDigests, chunkRows_deleteArchive_of_ne hother]

theorem uses_deleteArchive_of_ne {other : Int} (hother : other ≠ id) {d : Digest} :
    (c.deleteArchive id).Uses other d ↔ c.Uses other d := by
  unfold Uses
  rw [chunkRows_deleteArchive_of_ne hother]

theorem deleteArchive_comm (c : Catalog) (id id' : Int) :
    (c.deleteArchive id).deleteArchive id' = (c.deleteArchive id').deleteArchive id := by
  simp only [deleteArchive, List.filter_filter, Bool.and_comm]

/-- What refers to a digest belongs to the archive or stays when it goes. -/
theorem isReferenced_iff_uses_or (c : Catalog) (id : Int) (d : Digest) :
    c.isReferenced d = true ↔ c.Uses id d ∨ (c.deleteArchive id).isReferenced d = true := by
  simp only [isReferenced_iff, Uses, mem_chunkRows, mem_chunks_deleteArchive]
  constructor
  · rintro ⟨r, hr, hdigest⟩
    cases hequals : r.archive.equals (.integer id) with
    | true => exact Or.inl ⟨r, ⟨hr, hequals⟩, hdigest⟩
    | false => exact Or.inr ⟨r, ⟨hr, hequals⟩, hdigest⟩
  · rintro (⟨r, ⟨hr, -⟩, hdigest⟩ | ⟨r, ⟨hr, -⟩, hdigest⟩)
    · exact ⟨r, hr, hdigest⟩
    · exact ⟨r, hr, hdigest⟩

end Delete

end Catalog

end DedupArchive
