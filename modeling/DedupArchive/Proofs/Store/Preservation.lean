/-
  DedupArchive/Proofs/Store/Preservation.lean
  ===========================================
  **Storing and deleting keep a store sound.**

  What an operation does was said before; here it is followed into the archives
  that a store keeps.  A blob that is added or taken away makes no difference to
  an archive whose chunks do not need it.  So a save that fails changes no
  archive, one that succeeds adds one, and a deletion takes one away.
-/
import DedupArchive.Proofs.Store.Health

namespace DedupArchive

/-! ### Archives and blobs -/

namespace Catalog

variable {c c' : Catalog} {find find' : Digest → Option Bytes} {a : ArchiveRecord} {content : Bytes}

theorem Holds.unique (h : c.Holds find a content) {content' : Bytes} (h' : c.Holds find a content') :
    content = content' := by
  obtain ⟨rows, hrows, htiles⟩ := h.tiled
  obtain ⟨rows', hrows', htiles'⟩ := h'.tiled
  cases hrows.symm.trans hrows'
  exact htiles.unique htiles'

/-- An archive is still held if its chunks are the same and their blobs too. -/
theorem Holds.congr (h : c.Holds find a content) (hchunks : c'.chunksOf a.id = c.chunksOf a.id)
    (hfind : ∀ rows, c.chunksOf a.id = .ok rows → ∀ row ∈ rows, find' row.digest = find row.digest) :
    c'.Holds find' a content := by
  obtain ⟨⟨rows, hrows, htiles⟩, hdigest, hlength⟩ := h
  exact ⟨⟨rows, hchunks.trans hrows, htiles.congr (hfind rows hrows)⟩, hdigest, hlength⟩

/-- More blobs do no harm. -/
theorem Holds.extend (h : c.Holds find a content) (hchunks : c'.chunksOf a.id = c.chunksOf a.id)
    {more : Digest → Option Bytes} (hfind : ∀ d, find' d = (find d).or (more d)) :
    c'.Holds find' a content := by
  obtain ⟨⟨rows, hrows, htiles⟩, -⟩ := id h
  refine h.congr hchunks ?_
  intro rows' hrows' row hrow
  cases hrows.symm.trans hrows'
  obtain ⟨data, hfound, -⟩ := htiles.exists_blob hrow
  rw [hfind, hfound, Option.some_or]

/-- Rows laid down side by side tile the bytes of their parts. -/
theorem exists_tiles_layout {parts : List Bytes} (hparts : ∀ data ∈ parts, find (Digest.of data) = some data)
    (id : Int) (position : Nat) : ∃ rows,
      List.Forall₂ (fun r row => r.toRecord = .ok row) (layout id position parts) rows ∧
        Tiles find position rows parts.flatten := by
  induction parts generalizing position with
  | nil => exact ⟨[], .nil, .nil position⟩
  | cons data rest ih =>
    obtain ⟨rows, hrows, htiles⟩ :=
      ih (fun d hd => hparts d (List.mem_cons_of_mem data hd)) (position + data.length)
    exact ⟨⟨Digest.of data, position, data.length⟩ :: rows,
      .cons (ChunkRow.toRecord_eq_ok_iff.mpr ⟨rfl, rfl, rfl⟩) hrows,
      .cons rfl (hparts data List.mem_cons_self) rfl htiles⟩

/-- An archive is held once it is entered, if its parts are there as blobs. -/
theorem holds_enter {parts : List Bytes} (hadmits : c.Admits a parts)
    (hparts : ∀ data ∈ parts, find (Digest.of data) = some data)
    (hdigest : Digest.of parts.flatten = a.digest) : (c.enter a parts).Holds find a parts.flatten := by
  obtain ⟨rows, hrows, htiles⟩ := exists_tiles_layout hparts a.id 0
  refine ⟨⟨rows, ?_, htiles⟩, hdigest, hadmits.length⟩
  rw [chunksOf_eq_ok_iff, byOffset_enter hadmits]
  exact hrows

end Catalog

namespace Store

variable {σ : Type} [BlobStore σ] [FaithfulBlobs σ] {s : Store σ}

/-- The store has a completed archive of this name and these bytes. -/
def Keeps (s : Store σ) (name : String) (content : Bytes) : Prop :=
  ∃ a : ArchiveRecord, a.row ∈ s.catalog.archives ∧ a.name = name ∧
    s.catalog.Holds (BlobStore.find s.blobs) a content

theorem Sound.exists_keeps_iff (h : s.Sound) {name : String} :
    (∃ content, s.Keeps name content) ↔ s.catalog.archiveId? name ≠ none := by
  constructor
  · rintro ⟨content, a, ha, rfl, -⟩ hnone
    exact Catalog.archiveId?_eq_none_iff.mp hnone a.row ha rfl
  · intro hsome
    obtain ⟨id, hid⟩ := Option.ne_none_iff_exists'.mp hsome
    obtain ⟨r, hr, hname, -⟩ := Catalog.exists_mem_of_archiveId? hid
    obtain ⟨a, rfl, content, hholds⟩ := h.whole r hr
    exact ⟨content, a, hr, Cell.text.inj hname, hholds⟩

/-! ### What the two operations can do -/

/-- A save finds the name taken, or puts the chunks and enters the member unless
    the reader fails. -/
theorem Sound.save_cases (h : s.Sound) (name : String) {script : Script}
    (hfits : script.delivered.1.length < 2 ^ 63) :
    s.catalog.archiveId? name ≠ none ∧ s.save name script = (.error (.alreadyExists name), s) ∨
    s.catalog.archiveId? name = none ∧ ∃ blobs, FaithfulBlobs.Ready blobs ∧
      (∀ d, BlobStore.find blobs d =
        (BlobStore.find s.blobs d).or (partOf (cut s.params script) d)) ∧
      ((∃ e, script.delivered.2 = some e ∧
          s.save name script = (.error (.chunking (.io e)), { s with blobs })) ∨
        script.delivered.2 = none ∧
          s.catalog.Admits (s.recordOf name script.delivered.1) (cut s.params script) ∧
          (cut s.params script).flatten = script.delivered.1 ∧
          ∃ summary, summary.archive = s.recordOf name script.delivered.1 ∧
            s.save name script = (.ok summary, { s with
              catalog := s.catalog.enter (s.recordOf name script.delivered.1) (cut s.params script)
              blobs })) := by
  by_cases hname : s.catalog.archiveId? name = none
  · refine Or.inr ⟨hname, ?_⟩
    rcases hdelivered : script.delivered with ⟨data, failure⟩
    cases failure with
    | some e =>
      obtain ⟨blobs, hsave, hready, hfind⟩ := save_of_failure h.linked.next_free h.ready hname hfits hdelivered
      exact ⟨blobs, hready, hfind, Or.inl ⟨e, rfl, hsave⟩⟩
    | none =>
      obtain ⟨summary, blobs, hsave, hrecord, hready, hfind⟩ :=
        save_of_delivered h.linked.next_free h.ready hname hfits hdelivered
      have hadmits := admits_of_delivered h.linked.next_free hname hfits hdelivered
      exact ⟨blobs, hready, hfind,
        Or.inr ⟨rfl, hadmits, flatten_cut hdelivered, summary, hrecord, hsave⟩⟩
  · exact Or.inl ⟨hname, save_of_bound hname⟩

/-- A deletion finds no such member, or removes it with the blobs that only it needs. -/
theorem Sound.delete_cases (h : s.Sound) (name : String) :
    s.catalog.archiveId? name = none ∧ s.delete name = (.error (.notFound name), s) ∨
    ∃ (a : ArchiveRecord) (rows : List ChunkRecord) (blobs : σ), a.row ∈ s.catalog.archives ∧
      a.name = name ∧ s.catalog.chunksOf a.id = .ok rows ∧ FaithfulBlobs.Ready blobs ∧
      (∀ d, BlobStore.find blobs d =
        if (∃ row ∈ rows, row.digest = d) ∧ (s.catalog.deleteArchive a.id).isReferenced d = false
        then none else BlobStore.find s.blobs d) ∧
      s.delete name = (.ok (), { s with catalog := s.catalog.deleteArchive a.id, blobs }) := by
  cases hname : s.catalog.archiveId? name with
  | none => exact Or.inl ⟨rfl, delete_of_unbound hname⟩
  | some id =>
    obtain ⟨r, hr, htext, rfl⟩ := Catalog.exists_mem_of_archiveId? hname
    obtain ⟨a, rfl, content, ⟨rows, hrows, -⟩, -⟩ := h.whole r hr
    obtain ⟨blobs, hdelete, hready, hfind⟩ := delete_of_bound h.lawful h.ready hname hrows
    exact Or.inr ⟨a, rows, blobs, hr, Cell.text.inj htext, hrows, hready, hfind, hdelete⟩

/-! ### More blobs -/

def occurring (s : Store σ) (script : Script) : Set Bytes :=
  {data | (∃ d, BlobStore.find s.blobs d = some data) ∨ data ∈ cut s.params script}

section More

variable {parts : List Bytes} {blobs : σ} (h : s.Sound) (hready : FaithfulBlobs.Ready blobs)
  (hfind : ∀ d, BlobStore.find blobs d = (BlobStore.find s.blobs d).or (partOf parts d))

include h hfind

theorem honest_of_more (d : Digest) (data : Bytes) (hfound : BlobStore.find blobs d = some data) :
    Digest.of data = d := by
  rw [hfind, Option.or_eq_some_iff] at hfound
  rcases hfound with hfound | ⟨-, hfound⟩
  · exact h.honest d data hfound
  · exact (partOf_eq_some hfound).2

include hready

theorem sound_of_more : Sound { s with blobs } where
  lawful := h.lawful
  linked := h.linked
  ready := hready
  honest := honest_of_more h hfind
  whole := by
    intro r hr
    obtain ⟨a, rfl, content, hholds⟩ := h.whole r hr
    exact ⟨a, rfl, content, hholds.extend rfl hfind⟩

omit hready in
theorem keeps_more_iff {name : String} {content : Bytes} :
    Keeps { s with blobs } name content ↔ s.Keeps name content := by
  constructor
  · rintro ⟨a, ha, rfl, hholds⟩
    obtain ⟨a', hrow, content', hholds'⟩ := h.whole a.row ha
    cases ArchiveRecord.row_inj hrow
    cases hholds.unique (hholds'.extend rfl hfind)
    exact ⟨a, ha, rfl, hholds'⟩
  · rintro ⟨a, ha, rfl, hholds⟩
    exact ⟨a, ha, rfl, hholds.extend rfl hfind⟩

end More

/-! ### One archive more -/

section Entered

variable {a : ArchiveRecord} {parts : List Bytes} {blobs : σ} (h : s.Sound)
  (hadmits : s.catalog.Admits a parts) (hready : FaithfulBlobs.Ready blobs)
  (hfind : ∀ d, BlobStore.find blobs d = (BlobStore.find s.blobs d).or (partOf parts d))
  (hdigest : Digest.of parts.flatten = a.digest)
  (hdistinct : Set.InjOn Digest.of {data | (∃ d, BlobStore.find s.blobs d = some data) ∨ data ∈ parts})

section Held

include h hadmits hfind hdigest hdistinct

/-- The archive that was entered is held: what stands under the digest of a part
    is that part, since no two chunks share a digest. -/
theorem holds_entered : (s.catalog.enter a parts).Holds (BlobStore.find blobs) a parts.flatten := by
  refine Catalog.holds_enter hadmits (find_part_of_put hfind ?_ ?_) hdigest
  · intro data hdata found hfound
    exact hdistinct (Or.inl ⟨_, hfound⟩) (Or.inr hdata) (h.honest _ _ hfound)
  · exact hdistinct.mono fun _ hdata => Or.inr hdata

omit hdigest hdistinct in
/-- The archives that were there are still held. -/
theorem holds_enter_of_mem {a' : ArchiveRecord} (ha' : a'.row ∈ s.catalog.archives) {content : Bytes} :
    (s.catalog.enter a parts).Holds (BlobStore.find blobs) a' content ↔
      s.catalog.Holds (BlobStore.find s.blobs) a' content := by
  have hchunks : (s.catalog.enter a parts).chunksOf a'.id = s.catalog.chunksOf a'.id :=
    Catalog.chunksOf_enter_of_ne (hadmits.id_new a'.row ha').symm
  have hextend {content' : Bytes} (hholds : s.catalog.Holds (BlobStore.find s.blobs) a' content') :
      (s.catalog.enter a parts).Holds (BlobStore.find blobs) a' content' :=
    hholds.extend hchunks hfind
  constructor
  · intro hholds
    obtain ⟨a'', hrow, content', hholds'⟩ := h.whole a'.row ha'
    cases ArchiveRecord.row_inj hrow
    cases hholds.unique (hextend hholds')
    exact hholds'
  · exact hextend

theorem keeps_entered_iff {name : String} {content : Bytes} :
    Keeps { s with catalog := s.catalog.enter a parts, blobs } name content ↔
      (name = a.name ∧ content = parts.flatten) ∨ s.Keeps name content := by
  have hnew := holds_entered h hadmits hfind hdigest hdistinct
  constructor
  · rintro ⟨a', ha', rfl, hholds⟩
    rcases List.mem_cons.mp ha' with hrow | ha'
    · cases ArchiveRecord.row_inj hrow
      exact Or.inl ⟨rfl, hholds.unique hnew⟩
    · exact Or.inr ⟨a', ha', rfl, (holds_enter_of_mem h hadmits hfind ha').mp hholds⟩
  · rintro (⟨rfl, rfl⟩ | ⟨a', ha', rfl, hholds⟩)
    · exact ⟨a, List.mem_cons_self, rfl, hnew⟩
    · exact ⟨a', List.mem_cons_of_mem _ ha', rfl, (holds_enter_of_mem h hadmits hfind ha').mpr hholds⟩

include hready

theorem sound_of_entered : Sound { s with catalog := s.catalog.enter a parts, blobs } where
  lawful := h.lawful.enter hadmits
  linked := h.linked.enter
  ready := hready
  honest := honest_of_more h hfind
  whole := by
    intro r hr
    rcases List.mem_cons.mp hr with rfl | hr
    · exact ⟨a, rfl, _, holds_entered h hadmits hfind hdigest hdistinct⟩
    · obtain ⟨a', rfl, content, hholds⟩ := h.whole r hr
      exact ⟨a', rfl, content, (holds_enter_of_mem h hadmits hfind hr).mpr hholds⟩

end Held

include hfind in
omit [FaithfulBlobs σ] in
/-- Every blob that was put is referred to. -/
theorem unreferenced_of_entered {d : Digest}
    (hd : Unreferenced { s with catalog := s.catalog.enter a parts, blobs } d) :
    s.Unreferenced d := by
  obtain ⟨hthere, hunused⟩ := hd
  rw [← Bool.not_eq_true, Catalog.isReferenced_enter_iff, not_or, Bool.not_eq_true] at hunused
  refine ⟨?_, hunused.1⟩
  have hpart : partOf parts d = none := by
    rw [Option.eq_none_iff_forall_ne_some]
    intro data hdata
    obtain ⟨hmem, hdigest⟩ := partOf_eq_some hdata
    exact hunused.2 ⟨data, hmem, hdigest⟩
  rw [hfind, hpart, Option.or_none] at hthere
  exact hthere

end Entered

/-! ### One archive less -/

section Removed

variable {a : ArchiveRecord} {rows : List ChunkRecord} {blobs : σ} (h : s.Sound)
  (ha : a.row ∈ s.catalog.archives) (hrows : s.catalog.chunksOf a.id = .ok rows)
  (hready : FaithfulBlobs.Ready blobs)
  (hfind : ∀ d, BlobStore.find blobs d =
    if (∃ row ∈ rows, row.digest = d) ∧ (s.catalog.deleteArchive a.id).isReferenced d = false
    then none else BlobStore.find s.blobs d)

include h hfind

/-- The archives that stay are still held. -/
theorem holds_delete_iff {a' : ArchiveRecord} (ha' : a'.row ∈ s.catalog.archives) (hid : a'.id ≠ a.id)
    {content : Bytes} : (s.catalog.deleteArchive a.id).Holds (BlobStore.find blobs) a' content ↔
      s.catalog.Holds (BlobStore.find s.blobs) a' content := by
  have hchunks : (s.catalog.deleteArchive a.id).chunksOf a'.id = s.catalog.chunksOf a'.id :=
    Catalog.chunksOf_deleteArchive_of_ne hid
  -- a blob that such an archive needs is still referred to, by a chunk of it
  have hkept {rows' : List ChunkRecord} (hrows' : s.catalog.chunksOf a'.id = .ok rows')
      {row : ChunkRecord} (hrow : row ∈ rows') :
      BlobStore.find blobs row.digest = BlobStore.find s.blobs row.digest := by
    rw [← hchunks] at hrows'
    obtain ⟨r, hr, -, hread⟩ := Catalog.exists_chunkRow hrows' hrow
    have hused : (s.catalog.deleteArchive a.id).isReferenced row.digest = true :=
      Catalog.isReferenced_iff.mpr ⟨r, hr, (ChunkRow.toRecord_eq_ok_iff.mp hread).1⟩
    rw [hfind, if_neg]
    rintro ⟨-, hunused⟩
    rw [hused] at hunused
    cases hunused
  have hforth {content' : Bytes} (hholds : s.catalog.Holds (BlobStore.find s.blobs) a' content') :
      (s.catalog.deleteArchive a.id).Holds (BlobStore.find blobs) a' content' :=
    hholds.congr hchunks fun rows' hrows' row hrow => hkept hrows' hrow
  constructor
  · intro hholds
    obtain ⟨a'', hrow, content', hholds'⟩ := h.whole a'.row ha'
    cases ArchiveRecord.row_inj hrow
    cases hholds.unique (hforth hholds')
    exact hholds'
  · exact hforth

include ha

theorem keeps_removed_iff {name : String} {content : Bytes} :
    Keeps { s with catalog := s.catalog.deleteArchive a.id, blobs } name content ↔
      name ≠ a.name ∧ s.Keeps name content := by
  constructor
  · rintro ⟨a', ha', rfl, hholds⟩
    obtain ⟨ha', hid⟩ := Catalog.mem_archives_deleteArchive.mp ha'
    refine ⟨?_, a', ha', rfl, (holds_delete_iff h hfind ha' hid).mp hholds⟩
    intro hname
    cases h.lawful.eq_of_record_name ha' ha hname
    exact hid rfl
  · rintro ⟨hname, a', ha', rfl, hholds⟩
    have hid : a'.id ≠ a.id := by
      intro hid
      cases ArchiveRecord.row_inj (h.lawful.eq_of_id ha' ha hid)
      exact hname rfl
    exact ⟨a', Catalog.mem_archives_deleteArchive.mpr ⟨ha', hid⟩, rfl,
      (holds_delete_iff h hfind ha' hid).mpr hholds⟩

omit ha
include hready

theorem sound_of_removed : Sound { s with catalog := s.catalog.deleteArchive a.id, blobs } where
  lawful := h.lawful.deleteArchive a.id
  linked := h.linked.deleteArchive a.id
  ready := hready
  honest := by
    intro d data hfound
    rw [hfind] at hfound
    split at hfound
    · cases hfound
    · exact h.honest d data hfound
  whole := by
    intro r hr
    obtain ⟨hr, hid⟩ := Catalog.mem_archives_deleteArchive.mp hr
    obtain ⟨a', rfl, content, hholds⟩ := h.whole r hr
    exact ⟨a', rfl, content, (holds_delete_iff h hfind hr hid).mpr hholds⟩

omit h hready
include hrows

omit [FaithfulBlobs σ] in
/-- Every blob that only the archive needed is gone. -/
theorem unreferenced_of_removed {d : Digest}
    (hd : Unreferenced { s with catalog := s.catalog.deleteArchive a.id, blobs } d) :
    s.Unreferenced d := by
  obtain ⟨hthere, hunused⟩ := hd
  rw [hfind] at hthere
  split at hthere
  · cases hthere
  · rename_i hkept
    refine ⟨hthere, ?_⟩
    rw [← Bool.not_eq_true, Catalog.isReferenced_iff]
    rintro ⟨r, hr, hdigest⟩
    cases harchive : r.archive.equals (.integer a.id) with
    | true =>
      obtain ⟨row, hrow, hread⟩ := Catalog.exists_chunkRecord hrows hr harchive
      rw [(ChunkRow.toRecord_eq_ok_iff.mp hread).1, Cell.digest_cell_inj] at hdigest
      exact hkept ⟨⟨row, hrow, hdigest⟩, hunused⟩
    | false =>
      rw [Catalog.isReferenced_iff.mpr
        ⟨r, Catalog.mem_chunks_deleteArchive.mpr ⟨hr, harchive⟩, hdigest⟩] at hunused
      cases hunused

end Removed

end Store

end DedupArchive
