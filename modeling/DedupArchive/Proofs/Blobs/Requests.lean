/-
  DedupArchive/Proofs/Blobs/Requests.lean
  =======================================
  **Blob stores that cannot be told apart.**

  A transparent blob store is a faithful one whose every answer is decided by the
  bytes that it has under each digest: a put is new exactly if there are none, a
  list holds each digest once, in ascending order.  Nothing else of the store
  shows.  So two such stores that have the same bytes are interchangeable: asked
  the same, they answer the same, and have the same bytes again.
-/
import DedupArchive.Proofs.Ascending
import DedupArchive.Proofs.Blobs.Faithful

namespace DedupArchive

/-! ### What can be asked of a blob store -/

inductive BlobRequest where
  | put (d : Digest) (data : Bytes)
  | get (d : Digest)
  | contains (d : Digest)
  | erase (d : Digest)
  | digests

inductive BlobAnswer where
  | stored (result : Except BlobError Bool)
  | bytes (result : Except BlobError Bytes)
  | there (result : Except BlobError Bool)
  | erased (result : Except BlobError Unit)
  | listed (result : Except BlobError (List Digest))

namespace BlobStore

variable {σ : Type} [BlobStore σ]

def perform (blobs : σ) : BlobRequest → BlobAnswer × σ
  | .put d data => (.stored (put blobs d data).1, (put blobs d data).2)
  | .get d => (.bytes (get blobs d), blobs)
  | .contains d => (.there (contains blobs d), blobs)
  | .erase d => (.erased (erase blobs d).1, (erase blobs d).2)
  | .digests => (.listed (digests blobs), blobs)

def run (blobs : σ) : List BlobRequest → List BlobAnswer × σ
  | [] => ([], blobs)
  | request :: rest =>
    ((perform blobs request).1 :: (run (perform blobs request).2 rest).1,
      (run (perform blobs request).2 rest).2)

end BlobStore

/-! ### Answers that show the bytes alone -/

class TransparentBlobs (σ : Type) [BlobStore σ] [FaithfulBlobs σ] : Prop where
  put_new : ∀ {blobs : σ} (d : Digest) (data : Bytes), FaithfulBlobs.Ready blobs →
    (BlobStore.put blobs d data).1 = .ok (BlobStore.find blobs d).isNone
  get_eq : ∀ {blobs : σ} (d : Digest), FaithfulBlobs.Ready blobs →
    BlobStore.get blobs d = (BlobStore.find blobs d).elim (.error (.notFound d)) .ok
  contains_eq : ∀ {blobs : σ} (d : Digest), FaithfulBlobs.Ready blobs →
    BlobStore.contains blobs d = .ok (BlobStore.find blobs d).isSome
  digests_ascend : ∀ {blobs : σ} {stored : List Digest}, FaithfulBlobs.Ready blobs →
    BlobStore.digests blobs = .ok stored → stored.Pairwise fun d e => compare d e = .lt

instance : TransparentBlobs MemoryBlobs where
  put_new {m} d data _ := by
    rw [MemoryBlobs.find_eq]
    show (m.put d data).1 = _
    rw [MemoryBlobs.put, MemoryBlobs.get?]
    cases m.blobs[d]? <;> rfl
  get_eq {m} d _ := by
    rw [MemoryBlobs.find_eq]
    show m.get d = _
    rw [MemoryBlobs.get, MemoryBlobs.get?]
    cases m.blobs[d]? <;> rfl
  contains_eq {m} d _ := by
    rw [MemoryBlobs.find_eq]
    rfl
  digests_ascend {m stored} _ hstored := by
    cases hstored
    exact Std.ExtTreeMap.ordered_keys

/-- Both stores are ready and have the same bytes under every digest. -/
structure SameBlobs {σ τ : Type} [BlobStore σ] [FaithfulBlobs σ] [BlobStore τ] [FaithfulBlobs τ]
    (blobs : σ) (others : τ) : Prop where
  ready : FaithfulBlobs.Ready blobs
  ready' : FaithfulBlobs.Ready others
  find : ∀ d, BlobStore.find blobs d = BlobStore.find others d

section Same

variable {σ τ : Type} [BlobStore σ] [FaithfulBlobs σ] [TransparentBlobs σ] [BlobStore τ]
  [FaithfulBlobs τ] [TransparentBlobs τ] {blobs : σ} {others : τ}

/-- **One request.**  It is answered alike, and the bytes are the same again. -/
theorem SameBlobs.perform (h : SameBlobs blobs others) (request : BlobRequest) :
    (BlobStore.perform blobs request).1 = (BlobStore.perform others request).1 ∧
      SameBlobs (BlobStore.perform blobs request).2 (BlobStore.perform others request).2 := by
  cases request with
  | put d data =>
    have hnew := TransparentBlobs.put_new d data h.ready
    have hnew' := TransparentBlobs.put_new d data h.ready'
    obtain ⟨new, after, hput, hready, hfind⟩ := FaithfulBlobs.put_spec d data h.ready
    obtain ⟨new', after', hput', hready', hfind'⟩ := FaithfulBlobs.put_spec d data h.ready'
    rw [hput, Except.ok.injEq] at hnew
    rw [hput', Except.ok.injEq, ← h.find d, ← hnew] at hnew'
    simp only [BlobStore.perform, hput, hput', hnew', true_and]
    refine ⟨hready, hready', ?_⟩
    intro e
    rw [hfind, hfind', h.find e]
  | get d =>
    simp only [BlobStore.perform, TransparentBlobs.get_eq d h.ready,
      TransparentBlobs.get_eq d h.ready', h.find d, true_and]
    exact h
  | contains d =>
    simp only [BlobStore.perform, TransparentBlobs.contains_eq d h.ready,
      TransparentBlobs.contains_eq d h.ready', h.find d, true_and]
    exact h
  | erase d =>
    obtain ⟨after, herase, hready, hfind⟩ := FaithfulBlobs.erase_spec d h.ready
    obtain ⟨after', herase', hready', hfind'⟩ := FaithfulBlobs.erase_spec d h.ready'
    simp only [BlobStore.perform, herase, herase', true_and]
    refine ⟨hready, hready', ?_⟩
    intro e
    rw [hfind, hfind', h.find e]
  | digests =>
    obtain ⟨stored, hstored, hmem⟩ := FaithfulBlobs.digests_spec h.ready
    obtain ⟨stored', hstored', hmem'⟩ := FaithfulBlobs.digests_spec h.ready'
    have heq : stored = stored' := by
      apply eq_of_ascend (TransparentBlobs.digests_ascend h.ready hstored)
        (TransparentBlobs.digests_ascend h.ready' hstored')
      intro d
      rw [hmem, hmem', h.find d]
    simp only [BlobStore.perform, hstored, hstored', heq, true_and]
    exact h

/-- **A run.**  All that two such stores are asked is answered alike. -/
theorem SameBlobs.run (h : SameBlobs blobs others) (requests : List BlobRequest) :
    (BlobStore.run blobs requests).1 = (BlobStore.run others requests).1 ∧
      SameBlobs (BlobStore.run blobs requests).2 (BlobStore.run others requests).2 := by
  induction requests generalizing blobs others with
  | nil => exact ⟨rfl, h⟩
  | cons request rest ih =>
    obtain ⟨hanswer, hafter⟩ := h.perform request
    obtain ⟨hanswers, hlast⟩ := ih hafter
    simp only [BlobStore.run, hanswer, hanswers, true_and]
    exact hlast

end Same

end DedupArchive
