/-
  DedupArchive/Proofs/Blobs/Listed.lean
  =====================================
  **Blob stores that list what can be read.**

  A blob that can be read is in the list, if there is one.  This needs no more than
  the store's own way of looking: a directory that can be listed has been walked
  to, so a file that is read in it is one of its names.  It holds whatever else
  stands in the tree and whichever calls fail.
-/
import DedupArchive.Blobs.Faulty
import DedupArchive.Proofs.Blobs.Directory

namespace DedupArchive

class ListedBlobs (σ : Type) [BlobStore σ] : Prop where
  mem_digests : ∀ {blobs : σ} {stored : List Digest}, BlobStore.digests blobs = .ok stored →
    ∀ {d : Digest}, BlobStore.find blobs d ≠ none → d ∈ stored

instance : ListedBlobs MemoryBlobs where
  mem_digests {m stored} hstored d hfound := by
    cases hstored
    rwa [Std.ExtTreeMap.mem_keys, Std.ExtTreeMap.mem_iff_isSome_getElem?, Option.isSome_iff_ne_none,
      ← MemoryBlobs.find_eq]

theorem BlobDirectory.exists_locate_of_find {s : BlobDirectory} {d : Digest}
    (h : BlobStore.find s d ≠ none) : ∃ found, s.tree.locate (objectPath s.root d) = .ok found := by
  obtain ⟨data, hdata⟩ := Option.ne_none_iff_exists'.mp h
  rw [BlobStore.find_eq_some_iff] at hdata
  change s.get d = .ok data at hdata
  rw [get] at hdata
  split at hdata
  · rename_i found hread
    exact FileTree.exists_locate_of_bytesAt hread
  · cases hdata

instance : ListedBlobs BlobDirectory where
  mem_digests {s stored} hstored d hfound := by
    change s.digests = .ok stored at hstored
    rw [BlobDirectory.digests] at hstored
    cases hlist : s.tree.names (BlobDirectory.objects s.root) with
    | error e =>
      rw [hlist] at hstored
      cases hstored
    | ok names =>
      rw [hlist] at hstored
      cases hstored
      have hleads := FileTree.leads_of_names hlist
      obtain ⟨names', hlist', hmem⟩ := hleads.exists_names
      cases hlist.symm.trans hlist'
      rw [List.mem_mergeSort, List.mem_filterMap]
      refine ⟨d.toHex, (hmem _).mpr ?_, Digest.ofHex?_eq_some_iff.mpr rfl⟩
      obtain ⟨reached, hreached⟩ := BlobDirectory.exists_locate_of_find hfound
      rw [BlobDirectory.objectPath_eq] at hreached
      rw [hleads.entry_of_locate (Digest.step_toHex _ d) hreached]
      exact Option.some_ne_none _

instance {σ : Type} [BlobStore σ] [ListedBlobs σ] : ListedBlobs (FaultyBlobs σ) where
  mem_digests {s stored} hstored d hfound := by
    have hlisted : BlobStore.digests s.blobs = .ok stored := by
      simp only [BlobStore.digests] at hstored
      split at hstored
      · cases hstored
      · exact hstored
    refine ListedBlobs.mem_digests hlisted ?_
    intro hnone
    refine hfound ?_
    rw [BlobStore.find] at hnone ⊢
    simp only [BlobStore.get]
    split
    · rfl
    · exact hnone

end DedupArchive
