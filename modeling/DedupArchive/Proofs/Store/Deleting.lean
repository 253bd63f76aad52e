/-
  DedupArchive/Proofs/Store/Deleting.lean
  =======================================
  **What deleting a member does.**

  Of the blobs that the member's chunks refer to, those go that no chunk of
  another member refers to; nothing else goes.  Then the member's rows go.
-/
import DedupArchive.Proofs.Blobs.Faithful
import DedupArchive.Proofs.Catalog.Removal
import DedupArchive.Store.Basic

namespace DedupArchive.Store

variable {σ : Type} [BlobStore σ] [FaithfulBlobs σ]

/-- Of the given digests, those that nothing else refers to lose their blobs. -/
theorem release_spec {blobs : σ} (hready : FaithfulBlobs.Ready blobs) (changes : Transaction)
    (id : Int) (digests : List Digest) : ∃ blobs', release changes id blobs digests = (.ok (), blobs') ∧
      FaithfulBlobs.Ready blobs' ∧ ∀ d, BlobStore.find blobs' d =
        if d ∈ digests ∧ changes.current.referencedElsewhere d id = false then none
        else BlobStore.find blobs d := by
  induction digests generalizing blobs with
  | nil =>
    refine ⟨blobs, rfl, hready, ?_⟩
    intro d
    rw [if_neg (fun h => nomatch h.1)]
  | cons digest rest ih =>
    rw [release]
    cases helsewhere : changes.current.referencedElsewhere digest id with
    | true =>
      obtain ⟨blobs', hrelease, hready', hfind⟩ := ih hready
      refine ⟨blobs', by rw [if_pos rfl]; exact hrelease, hready', ?_⟩
      intro d
      rw [hfind]
      by_cases hd : d = digest
      · subst hd
        simp only [helsewhere, Bool.true_eq_false, and_false]
      · simp only [List.mem_cons, hd, false_or]
    | false =>
      obtain ⟨blobs₁, herase, hready₁, hfind₁⟩ := FaithfulBlobs.erase_spec digest hready
      obtain ⟨blobs', hrelease, hready', hfind⟩ := ih hready₁
      refine ⟨blobs', ?_, hready', ?_⟩
      · rw [if_neg Bool.false_ne_true, herase]
        exact hrelease
      · intro d
        rw [hfind, hfind₁]
        by_cases hd : d = digest
        · subst hd
          simp only [List.mem_cons_self, helsewhere, and_self, if_true, ite_self]
        · simp only [List.mem_cons, hd, false_or, Ne.symm hd, if_false]

section Delete

variable {s : Store σ} {name : String}

omit [FaithfulBlobs σ] in
theorem delete_of_unbound (h : s.catalog.archiveId? name = none) :
    s.delete name = (.error (.notFound name), s) := by
  rw [delete, h]

/-- A member whose digests can be read is removed, with the blobs that nothing
    refers to afterwards. -/
theorem delete_of_digests (hlawful : s.catalog.Lawful) (hready : FaithfulBlobs.Ready s.blobs) {id : Int}
    (hname : s.catalog.archiveId? name = some id) {digests : List Digest}
    (hdigests : s.catalog.archiveDigests id = .ok digests) : ∃ blobs,
      s.delete name = (.ok (), { s with catalog := s.catalog.deleteArchive id, blobs }) ∧
      FaithfulBlobs.Ready blobs ∧ ∀ d, BlobStore.find blobs d =
        if d ∈ digests ∧ (s.catalog.deleteArchive id).isReferenced d = false
        then none else BlobStore.find s.blobs d := by
  obtain ⟨blobs, hrelease, hready', hfind⟩ :=
    release_spec hready (Transaction.begin s.catalog) id digests
  refine ⟨blobs, ?_, hready', ?_⟩
  · have hbegin : (Transaction.begin s.catalog).current.archiveDigests id = .ok digests := hdigests
    rw [delete, hname]
    simp only [hbegin, hrelease]
    rfl
  · intro d
    rw [hfind, ← Catalog.referencedElsewhere_eq hlawful]
    rfl

/-- So is a member whose chunks can be read. -/
theorem delete_of_bound (hlawful : s.catalog.Lawful) (hready : FaithfulBlobs.Ready s.blobs) {id : Int}
    (hname : s.catalog.archiveId? name = some id) {rows : List ChunkRecord}
    (hrows : s.catalog.chunksOf id = .ok rows) : ∃ blobs,
      s.delete name = (.ok (), { s with catalog := s.catalog.deleteArchive id, blobs }) ∧
      FaithfulBlobs.Ready blobs ∧ ∀ d, BlobStore.find blobs d =
        if (∃ row ∈ rows, row.digest = d) ∧ (s.catalog.deleteArchive id).isReferenced d = false
        then none else BlobStore.find s.blobs d := by
  obtain ⟨digests, hdigests, hmem⟩ := Catalog.archiveDigests_of_chunksOf hrows
  obtain ⟨blobs, hdelete, hready', hfind⟩ := delete_of_digests hlawful hready hname hdigests
  refine ⟨blobs, hdelete, hready', ?_⟩
  intro d
  rw [hfind]
  exact if_congr (and_congr_left' (hmem d)) rfl rfl

end Delete

end DedupArchive.Store
