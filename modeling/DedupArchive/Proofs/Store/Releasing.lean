/-
  DedupArchive/Proofs/Store/Releasing.lean
  ========================================
  **What a deletion takes, and that it can be taken up again.**

  Which blobs a deletion frees is read off the rows: the digests that chunks of
  the member refer to and chunks of no other archive do.  The blobs go one after
  the other, the rows go last and together.  So a deletion that stops on the way
  has taken some of these blobs and no row, nothing that another member needs,
  and to finish it is to ask for it again.
-/
import DedupArchive.Proofs.Blobs.Separate
import DedupArchive.Proofs.Catalog.Entries
import DedupArchive.Proofs.Store.Deleting
import DedupArchive.Proofs.Store.Faults
import DedupArchive.Store.CatalogFile

namespace DedupArchive

/-! ### Digests that an archive has for itself -/

namespace Catalog

variable {c : Catalog} {id : Int}

/-- Whether chunks of an archive refer to a digest and chunks of no other archive do. -/
def Unshared (c : Catalog) (id : Int) (d : Digest) : Prop :=
  c.Uses id d ∧ ∀ r ∈ c.chunks, r.digest = d.cell → r.archive ≠ .null →
    r.archive.equals (.integer id) = true

def unshared (c : Catalog) (id : Int) : Except CatalogError (List Digest) :=
  (c.archiveDigests id).map fun digests => digests.filter fun d => !c.referencedElsewhere d id

theorem isNull_eq_false_iff {cell : Cell} : cell.isNull = false ↔ cell ≠ .null := by
  cases cell <;> simp [Cell.isNull]

theorem referencedElsewhere_eq_false_iff {d : Digest} : c.referencedElsewhere d id = false ↔
    ∀ r ∈ c.chunks, r.digest = d.cell → r.archive ≠ .null → r.archive.equals (.integer id) = true := by
  simp [referencedElsewhere, isNull_eq_false_iff]

theorem mem_unshared_iff {digests : List Digest} (h : c.unshared id = .ok digests) {d : Digest} :
    d ∈ digests ↔ c.Unshared id d := by
  rw [unshared] at h
  cases hdigests : c.archiveDigests id with
  | error e =>
    rw [hdigests] at h
    cases h
  | ok all =>
    rw [hdigests] at h
    cases h
    simp [mem_archiveDigests_iff hdigests, referencedElsewhere_eq_false_iff, Unshared, Uses]

/-! ### Rows that go and rows that stay -/

variable {row : ArchiveRow} (hids : (c.archives.map (·.id)).Nodup) (hrow : row ∈ c.archives)

include hids hrow in
theorem archive?_deleteArchive {other : String} (hname : row.name ≠ .text other) :
    (c.deleteArchive row.id).archive? other = c.archive? other := by
  have hmatch : (row.name.equals (.text other) && row.isComplete) = false := by
    rw [← Bool.not_eq_true, Bool.and_eq_true, Cell.equals_text_iff]
    exact fun hboth => hname hboth.1
  rw [archive?, find?_deleteArchive hids hrow hmatch, archive?]

include hids hrow in
theorem ne_id_of_archive? {other : String} (hname : row.name ≠ .text other) {a : ArchiveRecord}
    (ha : c.archive? other = .ok (some a)) : a.id ≠ row.id := by
  intro hid
  obtain ⟨hmem, hrecord⟩ := mem_of_archive? ha
  apply hname
  rw [← List.inj_on_of_nodup_map hids hmem hrow hid, ← hrecord]
  rfl

/-- What chunks of another archive refer to is shared. -/
theorem not_unshared_of_chunk {other : Int} (hother : other ≠ id) {rows : List ChunkRecord}
    (hrows : c.chunksOf other = .ok rows) {chunk : ChunkRecord} (hchunk : chunk ∈ rows) :
    ¬ c.Unshared id chunk.digest := by
  rintro ⟨-, hall⟩
  obtain ⟨r, hr, harchive, hread⟩ := exists_chunkRow hrows hchunk
  have hthere : r.archive ≠ .null := ((Cell.equals_iff _ _).mp harchive).1
  have hsame := hall r hr (ChunkRow.toRecord_eq_ok_iff.mp hread).1 hthere
  exact hother (Cell.eq_of_equals_integer harchive hsame)

end Catalog

namespace Store

open BlobStore (eraseAll)
open SeparateBlobs (content)

variable {σ : Type} [BlobStore σ]

/-! ### Loads that see the same -/

section Load

variable {τ : Type} [BlobStore τ] {s : Store σ} {t : Store τ} {name : String}

theorem Loading.addAll_congr {rows : List ChunkRecord}
    (h : ∀ row ∈ rows, BlobStore.get t.blobs row.digest = BlobStore.get s.blobs row.digest) (l : Loading) :
    l.addAll t name rows = l.addAll s name rows := by
  induction rows generalizing l with
  | nil => rfl
  | cons row rest ih =>
    have hrow : l.add t name row = l.add s name row := by
      simp only [Loading.add, h row List.mem_cons_self]
    simp only [Loading.addAll, hrow]
    split
    · rfl
    · exact ih (fun other hother => h other (List.mem_cons_of_mem row hother)) _

theorem load_congr (harchive : t.catalog.archive? name = s.catalog.archive? name)
    (hchunks : ∀ a, s.catalog.archive? name = .ok (some a) →
      t.catalog.chunksOf a.id = s.catalog.chunksOf a.id ∧
      ∀ rows, s.catalog.chunksOf a.id = .ok rows → ∀ row ∈ rows,
        BlobStore.get t.blobs row.digest = BlobStore.get s.blobs row.digest) (sink : Sink) :
    t.load name sink = s.load name sink := by
  have hinfo : t.info name = s.info name := by rw [info, harchive, info]
  rw [load, hinfo, load]
  split
  · rfl
  · rename_i a ha
    have hfound : s.catalog.archive? name = .ok (some a) := by
      rw [info] at ha
      split at ha <;> simp_all
    obtain ⟨hsame, hget⟩ := hchunks a hfound
    rw [hsame]
    split
    · rfl
    · rename_i rows hrows
      rw [Loading.addAll_congr (hget rows hrows)]

end Load

/-! ### All that a deletion can do -/

theorem release_eq (changes : Transaction) (id : Int) (blobs : σ) (digests : List Digest) :
    release changes id blobs digests =
      let erased := eraseAll blobs (digests.filter fun d => !changes.current.referencedElsewhere d id)
      (erased.1.mapError .blob, erased.2) := by
  induction digests generalizing blobs with
  | nil => rfl
  | cons d rest ih =>
    rw [release, List.filter_cons]
    cases changes.current.referencedElsewhere d id with
    | true => exact ih blobs
    | false =>
      simp only [Bool.false_eq_true, if_false, Bool.not_false, if_true, eraseAll]
      rcases BlobStore.erase blobs d with ⟨e | _, blobs'⟩
      · rfl
      · exact ih blobs'

inductive Deletion (s : Store σ) (name : String) : Except StoreError Unit × Store σ → Prop
  | unbound : s.catalog.archiveId? name = none → Deletion s name (.error (.notFound name), s)
  | unreadable {id : Int} {e : CatalogError} : s.catalog.archiveId? name = some id →
    s.catalog.unshared id = .error e → Deletion s name (.error (.catalog e), s)
  | stopped {id : Int} {digests : List Digest} {e : BlobError} : s.catalog.archiveId? name = some id →
    s.catalog.unshared id = .ok digests → (eraseAll s.blobs digests).1 = .error e →
    Deletion s name (.error (.blob e), { s with blobs := (eraseAll s.blobs digests).2 })
  | done {id : Int} {digests : List Digest} : s.catalog.archiveId? name = some id →
    s.catalog.unshared id = .ok digests → (eraseAll s.blobs digests).1 = .ok () →
    Deletion s name (.ok (),
      { s with catalog := s.catalog.deleteArchive id, blobs := (eraseAll s.blobs digests).2 })

theorem deletion (s : Store σ) (name : String) : s.Deletion name (s.delete name) := by
  cases hid : s.catalog.archiveId? name with
  | none =>
    rw [delete_of_unbound hid]
    exact .unbound hid
  | some id =>
    have hcurrent : (Transaction.begin s.catalog).current = s.catalog := rfl
    rw [delete, hid]
    dsimp only
    rw [hcurrent]
    cases hdigests : s.catalog.archiveDigests id with
    | error e =>
      exact .unreadable hid (by rw [Catalog.unshared, hdigests]; rfl)
    | ok all =>
      have hunshared : s.catalog.unshared id =
          .ok (all.filter fun d => !s.catalog.referencedElsewhere d id) := by
        rw [Catalog.unshared, hdigests]
        rfl
      dsimp only
      rw [release_eq, hcurrent]
      cases herase : (eraseAll s.blobs (all.filter fun d => !s.catalog.referencedElsewhere d id)).1 with
      | error e =>
        simp only [herase, Except.mapError]
        exact .stopped hid hunshared herase
      | ok _ =>
        simp only [herase, Except.mapError]
        exact .done hid hunshared herase

theorem delete_of_erased {s : Store σ} {name : String} {id : Int} {digests : List Digest}
    (hid : s.catalog.archiveId? name = some id) (hunshared : s.catalog.unshared id = .ok digests)
    (herase : (eraseAll s.blobs digests).1 = .ok ()) : s.delete name = (.ok (),
      { s with catalog := s.catalog.deleteArchive id, blobs := (eraseAll s.blobs digests).2 }) := by
  have hdeletion := s.deletion name
  generalize s.delete name = outcome at hdeletion ⊢
  cases hdeletion with
  | unbound hnone => cases hid.symm.trans hnone
  | unreadable hid' he =>
    cases hid.symm.trans hid'
    cases hunshared.symm.trans he
  | stopped hid' hunshared' he =>
    cases hid.symm.trans hid'
    cases hunshared.symm.trans hunshared'
    cases herase.symm.trans he
  | done hid' hunshared' _ =>
    cases hid.symm.trans hid'
    cases hunshared.symm.trans hunshared'
    rfl

/-! ### What goes and what stays -/

variable [SeparateBlobs σ]

section Effect

variable {s : Store σ} {row : ArchiveRow} {digests : List Digest}
  (hunshared : s.catalog.unshared row.id = .ok digests)

include hunshared

theorem content_of_erased (d : Digest) :
    content (eraseAll s.blobs digests).2 d = content s.blobs d ∨
      content (eraseAll s.blobs digests).2 d = none ∧ s.catalog.Unshared row.id d := by
  rcases BlobStore.content_eraseAll s.blobs digests d with hsame | ⟨hmem, hnone⟩
  · exact Or.inl hsame
  · exact Or.inr ⟨hnone, (Catalog.mem_unshared_iff hunshared).mp hmem⟩

/-- The same, said of the member by its name. -/
theorem content_of_release (hrow : row ∈ s.catalog.archives) {name : String} (hname : row.name = .text name)
    (d : Digest) : content (eraseAll s.blobs digests).2 d = content s.blobs d ∨
      content (eraseAll s.blobs digests).2 d = none ∧
        ∃ row ∈ s.catalog.archives, row.name = .text name ∧ s.catalog.Unshared row.id d := by
  rcases content_of_erased hunshared d with hsame | ⟨hnone, hown⟩
  · exact Or.inl hsame
  · exact Or.inr ⟨hnone, row, hrow, hname, hown⟩

variable (hids : (s.catalog.archives.map (·.id)).Nodup) (hrow : row ∈ s.catalog.archives)
  {other : String} (hname : row.name ≠ .text other)

include hids hrow hname

/-- The blobs of other members are not asked for, whether or not the rows go too. -/
theorem load_of_erased {c : Catalog} (hc : c = s.catalog ∨ c = s.catalog.deleteArchive row.id)
    (sink : Sink) : Store.load { s with catalog := c, blobs := (eraseAll s.blobs digests).2 } other sink =
      s.load other sink := by
  apply load_congr
  · rcases hc with rfl | rfl
    · rfl
    · exact Catalog.archive?_deleteArchive hids hrow hname
  · intro a ha
    have hother := Catalog.ne_id_of_archive? hids hrow hname ha
    constructor
    · rcases hc with rfl | rfl
      · rfl
      · exact Catalog.chunksOf_deleteArchive_of_ne hother
    · intro rows hrows chunk hchunk
      apply BlobStore.get_eraseAll
      rw [Catalog.mem_unshared_iff hunshared]
      exact Catalog.not_unshared_of_chunk hother hrows hchunk

end Effect

/-- The store that a change leaves behind: a catalog that cannot be changed stays
    as it is. -/
def kept (s : Store σ) (isWritable : Bool) (after : Store σ) : Store σ :=
  if isWritable then after else { after with catalog := s.catalog }

omit [BlobStore σ] [SeparateBlobs σ] in
theorem kept_of_catalog_eq {s after : Store σ} (h : after.catalog = s.catalog) (isWritable : Bool) :
    s.kept isWritable after = after := by
  cases isWritable
  · rw [kept, ← h]
    rfl
  · rfl

/-- **What a deletion takes.**  If it succeeds, the rows of the member go and the
    blobs that nothing else refers to, and nothing else goes.  If it fails, all
    rows stay and at most some of these blobs are gone; where the catalog turns
    out at the end not to be one that can be changed, it is all of them.  Either
    way every other member is loaded as before. -/
theorem delete_effect {s : Store σ} {name : String} (hids : (s.catalog.archives.map (·.id)).Nodup)
    (hnames : (s.catalog.archives.map (·.name)).Nodup) {isWritable : Bool}
    {result : Except StoreError Unit} {after : Store σ}
    (hdelete : s.deleteIf isWritable name = (result, after)) :
    (result = .ok () → ∃ row ∈ s.catalog.archives, row.name = .text name ∧
      (s.kept isWritable after).catalog = ⟨s.catalog.archives.filter fun r => r.name ≠ .text name,
        s.catalog.chunks.filter fun r => !r.archive.equals (.integer row.id)⟩ ∧
      ∀ d, (s.catalog.Unshared row.id d → content (s.kept isWritable after).blobs d = none) ∧
        (¬ s.catalog.Unshared row.id d →
          content (s.kept isWritable after).blobs d = content s.blobs d)) ∧
    (result ≠ .ok () → (s.kept isWritable after).catalog = s.catalog ∧
      ∀ d, content (s.kept isWritable after).blobs d = content s.blobs d ∨
        content (s.kept isWritable after).blobs d = none ∧
          ∃ row ∈ s.catalog.archives, row.name = .text name ∧ s.catalog.Unshared row.id d) ∧
    ∀ other ≠ name, ∀ sink, (s.kept isWritable after).load other sink = s.load other sink := by
  have hdeletion := s.deletion name
  rw [deleteIf] at hdelete
  generalize s.delete name = outcome at hdelete hdeletion
  have hother {row : ArchiveRow} (hname : row.name = .text name) {other : String} (hne : other ≠ name) :
      row.name ≠ .text other := by
    rw [hname]
    exact fun heq => hne (Cell.text.inj heq).symm
  cases hdeletion with
  | unbound _ =>
    cases hdelete
    rw [kept_of_catalog_eq rfl]
    exact ⟨nofun, fun _ => ⟨rfl, fun d => Or.inl rfl⟩, fun _ _ _ => rfl⟩
  | unreadable _ _ =>
    cases hdelete
    rw [kept_of_catalog_eq rfl]
    exact ⟨nofun, fun _ => ⟨rfl, fun d => Or.inl rfl⟩, fun _ _ _ => rfl⟩
  | @stopped id digests _ hid hunshared _ =>
    cases hdelete
    have hkept : s.kept isWritable { s with blobs := (eraseAll s.blobs digests).2 } = _ :=
      kept_of_catalog_eq rfl isWritable
    rw [hkept]
    obtain ⟨row, hrow, hname, rfl⟩ := Catalog.exists_mem_of_archiveId? hid
    refine ⟨nofun, fun _ => ⟨rfl, ?_⟩, ?_⟩
    · exact content_of_release hunshared hrow hname
    · intro other hne sink
      exact load_of_erased hunshared hids hrow (hother hname hne) (Or.inl rfl) sink
  | done hid hunshared herase =>
    obtain ⟨row, hrow, hname, rfl⟩ := Catalog.exists_mem_of_archiveId? hid
    cases hdelete
    cases isWritable with
    | false =>
      refine ⟨nofun, fun _ => ⟨rfl, ?_⟩, ?_⟩
      · exact content_of_release hunshared hrow hname
      · intro other hne sink
        exact load_of_erased hunshared hids hrow (hother hname hne) (Or.inl rfl) sink
    | true =>
      refine ⟨fun _ => ⟨row, hrow, hname, ?_, ?_⟩, fun hfailed => absurd rfl hfailed, ?_⟩
      · have harchives := Catalog.archives_deleteArchive hids hrow hnames
        rw [hname] at harchives
        exact congrArg (Catalog.mk · _) harchives
      · intro d
        constructor
        · intro hown
          exact BlobStore.content_eraseAll_of_mem herase
            ((Catalog.mem_unshared_iff hunshared).mpr hown)
        · intro hshared
          rcases content_of_erased hunshared d with hsame | ⟨-, hown⟩
          · exact hsame
          · exact absurd hown hshared
      · intro other hne sink
        exact load_of_erased hunshared hids hrow (hother hname hne) (Or.inr rfl) sink

def sharedByte : Store MemoryBlobs where
  catalog.archives := [⟨2, .text "b", .integer 1, (Digest.of [7]).cell⟩,
    ⟨1, .text "a", .integer 2, (Digest.of [7, 8]).cell⟩]
  catalog.chunks := [⟨.integer 2, (Digest.of [7]).cell, .integer 0, .integer 1⟩,
    ⟨.integer 1, (Digest.of [8]).cell, .integer 1, .integer 1⟩,
    ⟨.integer 1, (Digest.of [7]).cell, .integer 0, .integer 1⟩]
  blobs := ⟨((∅ : Std.ExtTreeMap Digest Bytes compare).insert (Digest.of [7]) [7]).insert
    (Digest.of [8]) [8]⟩
  params := .standard
  home := none

theorem digest_sharedByte : Digest.of [8] ≠ Digest.of [7] := by decide +kernel

theorem unshared_sharedByte {d : Digest} : sharedByte.catalog.Unshared 1 d ↔ d = Digest.of [8] := by
  simp only [Catalog.Unshared, Catalog.Uses, Catalog.mem_chunkRows, sharedByte, List.mem_cons,
    List.not_mem_nil, or_false]
  constructor
  · rintro ⟨⟨r, ⟨rfl | rfl | rfl, hown⟩, hdigest⟩, hall⟩
    · simp [Cell.equals_integer_iff] at hown
    · exact (Cell.digest_cell_inj.mp hdigest).symm
    · have hother := hall _ (Or.inl rfl) hdigest (by simp)
      simp [Cell.equals_integer_iff] at hother
  · rintro rfl
    refine ⟨⟨_, ⟨Or.inr (Or.inl rfl), rfl⟩, rfl⟩, ?_⟩
    rintro r (rfl | rfl | rfl) hdigest -
    · exact absurd (Cell.digest_cell_inj.mp hdigest).symm digest_sharedByte
    · rfl
    · rfl

theorem delete_sharedByte : (sharedByte.delete "a").1 = .ok () := by
  have hid : sharedByte.catalog.archiveId? "a" = some 1 := by
    simp [Catalog.archiveId?, sharedByte]
  obtain ⟨all, hall⟩ : ∃ all, sharedByte.catalog.archiveDigests 1 = .ok all := by
    apply Catalog.exists_archiveDigests
    intro r hr
    simp only [Catalog.mem_chunkRows, sharedByte, List.mem_cons, List.not_mem_nil, or_false] at hr
    obtain ⟨rfl | rfl | rfl, -⟩ := hr
    · exact ⟨_, rfl⟩
    · exact ⟨_, rfl⟩
    · exact ⟨_, rfl⟩
  rw [delete_of_erased hid (by rw [Catalog.unshared, hall]; rfl) (MemoryBlobs.eraseAll_ok _ _)]

/-- The common byte stays, the other one goes. -/
theorem delete_effect_sharedByte :
    content (sharedByte.delete "a").2.blobs (Digest.of [8]) = none ∧
      content (sharedByte.delete "a").2.blobs (Digest.of [7]) =
        content sharedByte.blobs (Digest.of [7]) ∧
      ∀ sink, (sharedByte.delete "a").2.load "b" sink = sharedByte.load "b" sink := by
  have hdelete : sharedByte.deleteIf true "a" = (.ok (), (sharedByte.delete "a").2) := by
    have hok := delete_sharedByte
    rw [deleteIf]
    generalize sharedByte.delete "a" = outcome at hok ⊢
    obtain ⟨_ | _, after⟩ := outcome
    · cases hok
    · rfl
  obtain ⟨hok, -, hothers⟩ := delete_effect (by decide) (by decide) hdelete
  obtain ⟨row, hrow, hname, -, hblobs⟩ := hok rfl
  have hid : row.id = 1 := by
    simp only [sharedByte, List.mem_cons, List.not_mem_nil, or_false] at hrow
    rcases hrow with rfl | rfl
    · simp at hname
    · rfl
  rw [hid] at hblobs
  refine ⟨(hblobs _).1 (unshared_sharedByte.mpr rfl), (hblobs _).2 ?_, hothers "b" (by decide)⟩
  rw [unshared_sharedByte]
  exact digest_sharedByte.symm

/-! ### Taking up a deletion again -/

/-- **A deletion that was stopped.**  Where a deletion succeeds, it also succeeds
    once some of the blobs it takes are gone, with the same outcome to the last
    blob and row; to ask for it once more changes nothing. -/
theorem delete_resumes {s : Store σ} {name : String} (hnames : (s.catalog.archives.map (·.name)).Nodup)
    (hdelete : (s.delete name).1 = .ok ()) {row : ArchiveRow} (hrow : row ∈ s.catalog.archives)
    (hname : row.name = .text name) {removed : List Digest}
    (hremoved : ∀ d ∈ removed, s.catalog.Unshared row.id d) :
    (eraseAll s.blobs removed).1 = .ok () ∧
      Store.delete { s with blobs := (eraseAll s.blobs removed).2 } name = s.delete name ∧
      (s.delete name).2.delete name = (.error (.notFound name), (s.delete name).2) := by
  have hdeletion := s.deletion name
  generalize s.delete name = outcome at hdelete hdeletion ⊢
  cases hdeletion with
  | unbound _ => cases hdelete
  | unreadable _ _ => cases hdelete
  | stopped _ _ _ => cases hdelete
  | @done id digests hid hunshared herase =>
    obtain ⟨row', hrow', hname', rfl⟩ := Catalog.exists_mem_of_archiveId? hid
    have honly {r : ArchiveRow} (hr : r ∈ s.catalog.archives) (hsame : r.name = .text name) : r = row' :=
      List.inj_on_of_nodup_map hnames hr hrow' (hsame.trans hname'.symm)
    cases honly hrow hname
    obtain ⟨hok, habsorb⟩ := BlobStore.eraseAll_eraseAll herase
      fun d hd => (Catalog.mem_unshared_iff hunshared).mpr (hremoved d hd)
    refine ⟨hok, ?_, ?_⟩
    · have herase' : (eraseAll (eraseAll s.blobs removed).2 digests).1 = .ok () := by
        rw [habsorb]
        exact herase
      have hagain := delete_of_erased (s := { s with blobs := (eraseAll s.blobs removed).2 })
        hid hunshared herase'
      rw [hagain, habsorb]
    · apply delete_of_unbound
      rw [Catalog.archiveId?_eq_none_iff]
      intro r hr hsame
      rw [Catalog.mem_archives_deleteArchive] at hr
      exact hr.2 (congrArg ArchiveRow.id (honly hr.1 hsame))

/-- The byte that goes may have gone before. -/
theorem delete_resumes_sharedByte :
    Store.delete { sharedByte with blobs := (eraseAll sharedByte.blobs [Digest.of [8]]).2 } "a" =
      sharedByte.delete "a" ∧
    (sharedByte.delete "a").2.delete "a" = (.error (.notFound "a"), (sharedByte.delete "a").2) := by
  have hrow : ⟨1, .text "a", .integer 2, (Digest.of [7, 8]).cell⟩ ∈ sharedByte.catalog.archives :=
    List.mem_cons_of_mem _ List.mem_cons_self
  apply (delete_resumes (by decide) delete_sharedByte hrow rfl ?_).2
  intro d hd
  exact unshared_sharedByte.mpr (List.mem_singleton.mp hd)

end Store

end DedupArchive
