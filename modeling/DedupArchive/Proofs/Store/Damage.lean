/-
  DedupArchive/Proofs/Store/Damage.lean
  =====================================
  **Damage to blobs is noticed.**

  In a clean store every blob is in use, and it is what its digest says.  When
  blobs are then lost or overwritten behind the library's back, any number of them
  at once, an audit condemns exactly the digests whose blobs have changed, and an
  archive can be loaded exactly if none of its chunks has.  Changes cannot make up
  for each other: every blob is looked at by itself, and what an archive's rows
  tile is the same only if every blob among them is.
-/
import DedupArchive.Proofs.Blobs.Listed
import DedupArchive.Proofs.Store.Readback
import DedupArchive.Proofs.Store.Repairing

namespace DedupArchive

/-! ### Findings about one blob -/

/-- Whether a finding says that a blob which is in use is not what it should be. -/
def Finding.Condemns (d : Digest) : Finding → Prop
  | .unreadableBlob d' _ | .wrongSize d' _ _ | .corruptBlob d' _ => d' = d
  | _ => False

theorem Finding.Blames.not_condemns {f : Finding} {name : String} (h : f.Blames name) (d : Digest) :
    ¬ f.Condemns d := by
  cases f <;> first | exact id | exact h.elim

namespace Store

section Condemned

variable {σ : Type} [BlobStore σ] {s : Store σ} {d : Digest}

theorem condemns_iff_of_mem_checkBlob {d' : Digest} {n : Nat} {f : Finding}
    (hf : f ∈ s.checkBlob d' n) : f.Condemns d ↔ d' = d := by
  rcases mem_checkBlob_iff.mp hf with ⟨e, -, rfl⟩ | ⟨data, -, ⟨-, rfl⟩ | ⟨-, -, rfl⟩⟩
  · exact Iff.rfl
  · exact Iff.rfl
  · exact Iff.rfl

/-- A digest is condemned if something is wrong with its blob at some length at
    which it is referred to. -/
theorem exists_condemning_iff {report : AuditReport} (haudit : s.audit = .ok report) :
    (∃ f ∈ report.findings, f.Condemns d) ↔
      ∃ refs, s.catalog.referenced = .ok refs ∧ ∃ n, (d, n) ∈ refs ∧ s.checkBlob d n ≠ [] := by
  constructor
  · rintro ⟨f, hf, hcondemns⟩
    rcases finding_cases haudit hf with ⟨name, rfl⟩ | ⟨name, hblames⟩ | ⟨d', rfl⟩ |
      ⟨refs, hrefs, ⟨d', n⟩, hmem, hf⟩
    · exact hcondemns.elim
    · exact absurd hcondemns (hblames.not_condemns d)
    · exact hcondemns.elim
    · obtain rfl := (condemns_iff_of_mem_checkBlob hf).mp hcondemns
      exact ⟨refs, hrefs, n, hmem, List.ne_nil_of_mem hf⟩
  · rintro ⟨refs, hrefs, n, hmem, hwrong⟩
    obtain ⟨refs', hrefs', hchecked⟩ := exists_referenced_of_audit haudit
    cases hrefs.symm.trans hrefs'
    obtain ⟨f, hf⟩ := List.exists_mem_of_ne_nil _ hwrong
    exact ⟨f, hchecked _ hmem f hf, (condemns_iff_of_mem_checkBlob hf).mpr rfl⟩

end Condemned

/-! ### Blobs that are lost or overwritten -/

/-- Whether other bytes than before, or none, lie under a digest. -/
def Altered {σ : Type} [BlobStore σ] (s : Store σ) (blobs : σ) (d : Digest) : Prop :=
  BlobStore.find blobs d ≠ BlobStore.find s.blobs d

/-- Of a store's blobs some have been removed and some replaced by other bytes, and no
    digest is shared by byte strings that it should tell apart: neither by a blob and
    what replaces it, nor by an archive and what it is put together to then. -/
structure Damages {σ : Type} [BlobStore σ] (s : Store σ) (blobs : σ) : Prop where
  listed : ∃ stored, BlobStore.digests blobs = .ok stored
  stored : ∀ d, BlobStore.find s.blobs d = none → BlobStore.find blobs d = none
  replaced : ∀ d data, s.Altered blobs d → BlobStore.find blobs d = some data → Digest.of data ≠ d
  members : ∀ (a : ArchiveRecord) (rows : List ChunkRecord) (content content' : Bytes),
    a.row ∈ s.catalog.archives → s.catalog.chunksOf a.id = .ok rows →
      Tiles (BlobStore.find s.blobs) 0 rows content → Tiles (BlobStore.find blobs) 0 rows content' →
        content' ≠ content → Digest.of content' ≠ a.digest

section Damage

variable {σ : Type} [BlobStore σ] {s : Store σ} {blobs : σ} {before : AuditReport}
  (haudit : s.audit = .ok before) (hclean : before.findings = [])

include haudit hclean

/-- If an audit finds nothing, every blob that is referred to is as long as it
    should be and what its digest says. -/
theorem exists_blob_of_clean {refs : List (Digest × Nat)} (hrefs : s.catalog.referenced = .ok refs)
    {d : Digest} {n : Nat} (hmem : (d, n) ∈ refs) :
    ∃ data, BlobStore.find s.blobs d = some data ∧ data.length = n ∧ Digest.of data = d := by
  obtain ⟨refs', hrefs', hchecked⟩ := exists_referenced_of_audit haudit
  cases hrefs.symm.trans hrefs'
  rw [← checkBlob_eq_nil_iff, List.eq_nil_iff_forall_not_mem]
  intro f hf
  have hfound := hchecked _ hmem f hf
  rw [hclean] at hfound
  cases hfound

theorem exists_reference_of_clean [ListedBlobs σ] {refs : List (Digest × Nat)}
    (hrefs : s.catalog.referenced = .ok refs) {d : Digest} (hthere : BlobStore.find s.blobs d ≠ none) :
    ∃ n, (d, n) ∈ refs := by
  obtain ⟨refs', stored, hrefs', hstored, hreported⟩ := exists_listed_of_audit haudit
  cases hrefs.symm.trans hrefs'
  by_contra hnone
  rw [not_exists] at hnone
  have hfound := hreported d (ListedBlobs.mem_digests hstored hthere) hnone
  rw [hclean] at hfound
  cases hfound

/-- An audit condemns the digests under which something has changed, and no others. -/
theorem Damages.exists_condemning_iff [ListedBlobs σ] (h : s.Damages blobs) {report : AuditReport}
    (haudit' : audit { s with blobs } = .ok report) (d : Digest) :
    (∃ f ∈ report.findings, f.Condemns d) ↔ s.Altered blobs d := by
  rw [Store.exists_condemning_iff haudit']
  constructor
  · rintro ⟨refs, hrefs, n, hmem, hwrong⟩ hsame
    obtain ⟨data, hfound, hright⟩ := exists_blob_of_clean haudit hclean hrefs hmem
    exact hwrong (checkBlob_eq_nil_iff.mpr ⟨data, hsame.trans hfound, hright⟩)
  · intro haltered
    have hthere : BlobStore.find s.blobs d ≠ none :=
      fun hnone => haltered ((h.stored d hnone).trans hnone.symm)
    obtain ⟨refs, hrefs, -⟩ := exists_referenced_of_audit haudit
    obtain ⟨n, hmem⟩ := exists_reference_of_clean haudit hclean hrefs hthere
    refine ⟨refs, hrefs, n, hmem, ?_⟩
    intro hright
    obtain ⟨data, hfound, -, hdigest⟩ := checkBlob_eq_nil_iff.mp hright
    exact h.replaced d data haltered hfound hdigest

section Load

variable (hlawful : s.catalog.Lawful) {a : ArchiveRecord} (ha : a.row ∈ s.catalog.archives)
  {rows : List ChunkRecord} (hrows : s.catalog.chunksOf a.id = .ok rows) (sink : Sink)

include hlawful ha hrows

theorem exists_holds_of_clean : ∃ content, s.catalog.Holds (BlobStore.find s.blobs) a content := by
  rw [exists_holds_iff hlawful haudit ha hrows, hclean]
  exact ⟨nofun, fun row hrow => nofun⟩

theorem Damages.exists_load_error (h : s.Damages blobs)
    (haltered : ∃ row ∈ rows, s.Altered blobs row.digest) :
    ∃ e, (load { s with blobs } a.name sink).1 = .error e := by
  cases hload : (load { s with blobs } a.name sink).1 with
  | error e => exact ⟨e, rfl⟩
  | ok record =>
    obtain ⟨content', ⟨rows', hrows', htiles'⟩, hdigest, -⟩ :=
      holds_of_load (s := { s with blobs }) (info_of_mem hlawful ha) hload
    cases hrows.symm.trans hrows'
    obtain ⟨content, ⟨rows', hrows', htiles⟩, -⟩ := exists_holds_of_clean haudit hclean hlawful ha hrows
    cases hrows.symm.trans hrows'
    by_cases heq : content' = content
    -- bytes that move from one blob to the next change the lengths of both
    · obtain ⟨row, hrow, haltered⟩ := haltered
      exact absurd (htiles.find_eq htiles' heq row hrow) haltered
    · exact absurd hdigest (h.members a rows content content' ha hrows htiles htiles' heq)

theorem exists_load_of_unaltered (hsink : sink.TakesAll)
    (hsame : ∀ row ∈ rows, ¬ s.Altered blobs row.digest) :
    ∃ record, (load { s with blobs } a.name sink).1 = .ok record := by
  obtain ⟨content, ⟨rows', hrows', htiles⟩, hdigest, hlength⟩ :=
    exists_holds_of_clean haudit hclean hlawful ha hrows
  cases hrows.symm.trans hrows'
  have htiles' : Tiles (BlobStore.find blobs) 0 rows content :=
    htiles.congr fun row hrow => not_not.mp (hsame row hrow)
  obtain ⟨sink', hload, -⟩ := load_of_holds (s := { s with blobs }) (info_of_mem hlawful ha)
    ⟨⟨rows, hrows, htiles'⟩, hdigest, hlength⟩ hsink
  exact ⟨a, by rw [hload]⟩

end Load

end Damage

/-- **Damage is detected.**  An audit of a store has found nothing.  After any
    number of its blobs have been lost or overwritten, an audit still reports, and
    condemns exactly the digests whose blobs have changed.  Every completed archive
    with a chunk among them fails to load, into whatever sink, and every other can
    still be loaded. -/
theorem damage_detected {σ : Type} [BlobStore σ] [ListedBlobs σ] {s : Store σ} {blobs : σ}
    {before : AuditReport} (hlawful : s.catalog.Lawful) (haudit : s.audit = .ok before)
    (hclean : before.isClean = true) (hdamages : s.Damages blobs) :
    ∃ report, audit { s with blobs } = .ok report ∧
      (∀ d, (∃ f ∈ report.findings, f.Condemns d) ↔ s.Altered blobs d) ∧
      ∃ archives, s.catalog.completed = .ok archives ∧ ∀ a ∈ archives, ∃ rows,
        s.catalog.chunksOf a.id = .ok rows ∧ ∀ sink : Sink,
          ((∃ row ∈ rows, s.Altered blobs row.digest) →
            ∃ e, (load { s with blobs } a.name sink).1 = .error e) ∧
          (sink.TakesAll → (∀ row ∈ rows, ¬ s.Altered blobs row.digest) →
            ∃ record, (load { s with blobs } a.name sink).1 = .ok record) := by
  rw [AuditReport.isClean, List.isEmpty_iff] at hclean
  obtain ⟨report, haudit'⟩ := exists_audit_of_listed haudit hdamages.listed
  obtain ⟨archives, harchives, hread⟩ := exists_rows_of_audit haudit
  refine ⟨report, haudit', hdamages.exists_condemning_iff haudit hclean haudit', archives, harchives, ?_⟩
  intro a ha
  obtain ⟨rows, hrows⟩ := hread a ha
  rw [Catalog.mem_completed_iff harchives] at ha
  exact ⟨rows, hrows, fun sink =>
    ⟨hdamages.exists_load_error haudit hclean hlawful ha hrows sink,
      exists_load_of_unaltered haudit hclean hlawful ha hrows sink⟩⟩

def oneBlob (data : Bytes) : Store MemoryBlobs :=
  { lostBlob with blobs := (MemoryBlobs.empty.put (Digest.of [7]) data).2 }

theorem find_oneBlob (data : Bytes) (d : Digest) :
    BlobStore.find (oneBlob data).blobs d = if Digest.of [7] = d then some data else none :=
  find_put_empty _ d data

theorem tiles_oneBlob (b : UInt8) :
    Tiles (BlobStore.find (oneBlob [b]).blobs) 0 [⟨Digest.of [7], 0, 1⟩] [b] := by
  have hfound : BlobStore.find (oneBlob [b]).blobs (Digest.of [7]) = some [b] :=
    (find_oneBlob [b] _).trans (if_pos rfl)
  exact @Tiles.cons _ 0 ⟨Digest.of [7], 0, 1⟩ [] [b] [] rfl hfound rfl (.nil _)

theorem clean_oneBlob : (oneBlob [7]).Clean := by
  refine clean_iff.mpr ⟨⟨lawful_lostBlob, ?_, trivial, ?_, ?_⟩, ?_⟩
  · intro r hr
    rw [List.mem_singleton.mp hr]
    exact ⟨_, List.mem_singleton_self _, (Cell.equals_integer_iff _ _).mpr (Or.inl rfl)⟩
  · intro d data hfound
    rw [find_oneBlob] at hfound
    split at hfound
    · rename_i heq
      cases hfound
      exact heq
    · cases hfound
  · intro r hr
    exact ⟨⟨1, "a", 1, Digest.of [7]⟩, List.mem_singleton.mp hr, [7],
      ⟨_, chunksOf_lostBlob, tiles_oneBlob 7⟩, rfl, rfl⟩
  · rintro d ⟨hthere, hunused⟩
    rw [find_oneBlob] at hthere
    split at hthere
    · rename_i heq
      subst heq
      have hused : (oneBlob [7]).catalog.isReferenced (Digest.of [7]) = true :=
        Catalog.isReferenced_iff.mpr ⟨_, List.mem_singleton_self _, rfl⟩
      rw [hused] at hunused
      cases hunused
    · cases hthere

theorem digest_flippedBit : Digest.of [6] ≠ Digest.of [7] := by decide +kernel

/-- A flipped bit is reported for the blob, and the member cannot be loaded. -/
theorem damage_detected_flippedBit : ∃ report, (oneBlob [6]).audit = .ok report ∧
    (∃ f ∈ report.findings, f.Condemns (Digest.of [7])) ∧
      ∀ sink : Sink, ∃ e, ((oneBlob [6]).load "a" sink).1 = .error e := by
  have haltered : (oneBlob [7]).Altered (oneBlob [6]).blobs (Digest.of [7]) := by
    rw [Altered, find_oneBlob, find_oneBlob, if_pos rfl, if_pos rfl]
    decide
  have hdamages : (oneBlob [7]).Damages (oneBlob [6]).blobs := by
    refine ⟨⟨_, rfl⟩, ?_, ?_, ?_⟩
    · intro d hnone
      rw [find_oneBlob] at hnone ⊢
      split at hnone
      · cases hnone
      · rename_i hne
        rw [if_neg hne]
    · intro d data _ hfound
      rw [find_oneBlob] at hfound
      split at hfound
      · rename_i heq
        cases hfound
        exact heq ▸ digest_flippedBit
      · cases hfound
    · intro a rows content content' ha hrows htiles htiles' _
      obtain rfl : a = ⟨1, "a", 1, Digest.of [7]⟩ := ArchiveRecord.row_inj (List.mem_singleton.mp ha)
      cases chunksOf_lostBlob.symm.trans hrows
      rw [htiles'.unique (tiles_oneBlob 6)]
      exact digest_flippedBit
  obtain ⟨hlawful, -, -, before, hbefore, hclean⟩ := clean_oneBlob
  obtain ⟨report, haudit, hcondemned, archives, harchives, hload⟩ :=
    damage_detected hlawful hbefore hclean hdamages
  have hmem : (⟨1, "a", 1, Digest.of [7]⟩ : ArchiveRecord) ∈ archives :=
    (Catalog.mem_completed_iff harchives).mpr (List.mem_singleton_self _)
  obtain ⟨rows, hrows, hload⟩ := hload _ hmem
  cases chunksOf_lostBlob.symm.trans hrows
  exact ⟨report, haudit, (hcondemned _).mpr haltered,
    fun sink => (hload sink).1 ⟨_, List.mem_singleton_self _, haltered⟩⟩

end Store

end DedupArchive
