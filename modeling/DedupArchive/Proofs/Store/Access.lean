/-
  DedupArchive/Proofs/Store/Access.lean
  =====================================
  **What a request looks at and what it changes.**

  Blobs change in two ways only: some bytes are put, or a blob is erased.  So
  whatever both of these keep is kept by every request.  And no request asks
  whether chunks are to be hashed: a member is always stored with the digests of
  its chunks.
-/
import DedupArchive.Store.Audit

namespace DedupArchive.Store

variable {σ : Type} [BlobStore σ]

/-! ### Changes to the blobs -/

section Blobs

variable {P : σ → Prop} (hput : ∀ blobs d data, P blobs → P (BlobStore.put blobs d data).2)
  (herase : ∀ blobs d, P blobs → P (BlobStore.erase blobs d).2)

include hput in
theorem Saving.add_keeps {t : Saving σ} (h : P t.blobs) (id : Int) (chunk : Chunk) :
    P (t.add id chunk).2.blobs := by
  have hblobs := hput t.blobs chunk.digest chunk.data h
  rw [add]
  generalize BlobStore.put t.blobs chunk.digest chunk.data = outcome at hblobs ⊢
  rcases outcome with ⟨e | new, blobs⟩
  · exact hblobs
  · dsimp only
    rcases t.changes.insertChunk id chunk.digest (UInt64.ofNat t.whole.length)
      (UInt64.ofNat chunk.length) with ⟨e | _, changes⟩
    · exact hblobs
    · exact hblobs

include hput in
theorem Saving.addAll_keeps {t : Saving σ} (h : P t.blobs) (id : Int) (chunks : List Chunk) :
    P (t.addAll id chunks).2.blobs := by
  induction chunks generalizing t with
  | nil => exact h
  | cons chunk rest ih =>
    have hadd := Saving.add_keeps hput h id chunk
    rw [addAll]
    generalize t.add id chunk = outcome at hadd ⊢
    rcases outcome with ⟨e | _, t'⟩
    · exact hadd
    · exact ih hadd

include hput in
theorem save_keeps {ρ : Type} [Reader ρ] {s : Store σ} (h : P s.blobs) (name : String) (source : ρ) :
    P (s.save name source).2.blobs := by
  rw [save]
  split
  · exact h
  · rcases (Transaction.begin s.catalog).insertArchive name with ⟨e | id, changes⟩
    · exact h
    · dsimp only
      rcases chunksOf { s.params with hashing := true } source with ⟨chunks, failure⟩
      have hadded := Saving.addAll_keeps (t := ⟨changes, s.blobs, .start, 0, 0⟩) hput h id chunks
      generalize Saving.addAll ⟨changes, s.blobs, .start, 0, 0⟩ id chunks = outcome at hadded ⊢
      rcases outcome with ⟨e | _, saving⟩
      · exact hadded
      · rcases failure with _ | e
        · dsimp only
          rcases saving.changes.finalize id (UInt64.ofNat saving.whole.length) saving.whole.digest with
            ⟨e | _, changes⟩
          · exact hadded
          · exact hadded
        · exact hadded

include herase in
theorem release_keeps {changes : Transaction} {id : Int} {blobs : σ} (h : P blobs)
    (digests : List Digest) : P (release changes id blobs digests).2 := by
  induction digests generalizing blobs with
  | nil => exact h
  | cons d rest ih =>
    have hblobs := herase blobs d h
    rw [release]
    split
    · exact ih h
    · generalize BlobStore.erase blobs d = outcome at hblobs ⊢
      rcases outcome with ⟨e | _, blobs'⟩
      · exact hblobs
      · exact ih hblobs

include herase in
theorem delete_keeps {s : Store σ} (h : P s.blobs) (name : String) : P (s.delete name).2.blobs := by
  rw [delete]
  cases s.catalog.archiveId? name with
  | none => exact h
  | some id =>
    dsimp only
    cases (Transaction.begin s.catalog).current.archiveDigests id with
    | error e => exact h
    | ok digests =>
      have hreleased := @release_keeps σ _ P herase (.begin s.catalog) id s.blobs h digests
      dsimp only
      generalize release (.begin s.catalog) id s.blobs digests = outcome at hreleased ⊢
      rcases outcome with ⟨e | _, blobs⟩
      · exact hreleased
      · exact hreleased

end Blobs

/-! ### Parameters -/

def hashed (s : Store σ) : Store σ := { s with params := { s.params with hashing := true } }

variable (s : Store σ)

theorem save_hashed {ρ : Type} [Reader ρ] (name : String) (source : ρ) :
    s.hashed.save name source = ((s.save name source).1, (s.save name source).2.hashed) := by
  simp only [save, hashed]
  by_cases htaken : (s.catalog.archiveId? name).isSome = true
  · simp only [htaken, if_true]
  · simp only [htaken, if_false, Bool.false_eq_true]
    rcases (Transaction.begin s.catalog).insertArchive name with ⟨e | id, changes⟩
    · rfl
    · dsimp only
      rcases chunksOf { s.params with hashing := true } source with ⟨chunks, failure⟩
      dsimp only
      rcases Saving.addAll ⟨changes, s.blobs, .start, 0, 0⟩ id chunks with ⟨e | _, saving⟩
      · rfl
      · rcases failure with _ | e
        · dsimp only
          rcases saving.changes.finalize id (UInt64.ofNat saving.whole.length) saving.whole.digest with
            ⟨e | _, changes⟩
          · rfl
          · rfl
        · rfl

theorem delete_hashed (name : String) :
    s.hashed.delete name = ((s.delete name).1, (s.delete name).2.hashed) := by
  simp only [delete, hashed]
  cases s.catalog.archiveId? name with
  | none => rfl
  | some id =>
    dsimp only
    cases (Transaction.begin s.catalog).current.archiveDigests id with
    | error e => rfl
    | ok digests =>
      dsimp only
      rcases release (.begin s.catalog) id s.blobs digests with ⟨e | _, blobs⟩
      · rfl
      · rfl

theorem addAll_hashed (l : Loading) (name : String) (rows : List ChunkRecord) :
    l.addAll s.hashed name rows = l.addAll s name rows := by
  induction rows generalizing l with
  | nil => rfl
  | cons row rest ih =>
    have hadd : l.add s.hashed name row = l.add s name row := rfl
    rw [Loading.addAll, Loading.addAll, hadd]
    rcases l.add s name row with ⟨e | _, l'⟩
    · rfl
    · exact ih l'

theorem load_hashed (name : String) (sink : Sink) : s.hashed.load name sink = s.load name sink := by
  simp only [load, addAll_hashed]
  rfl

theorem reassemble_hashed (name : String) (whole : Digest.Running) (rows : List ChunkRecord) :
    s.hashed.reassemble name whole rows = s.reassemble name whole rows := by
  induction rows generalizing whole with
  | nil => rfl
  | cons row rest ih =>
    have hget : BlobStore.get s.hashed.blobs row.digest = BlobStore.get s.blobs row.digest := rfl
    rw [reassemble, reassemble, hget]
    cases BlobStore.get s.blobs row.digest with
    | error e => rfl
    | ok data => exact ih (whole.feed data)

theorem audit_hashed : s.hashed.audit = s.audit := by
  simp only [audit, findMismatched, reassemble_hashed]
  rfl

end DedupArchive.Store
