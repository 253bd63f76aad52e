/-
  DedupArchive/Proofs/Store/Failing.lean
  ======================================
  **A save that fails leaves nothing but blobs.**

  A save can fail at any chunk: its blob cannot be put, its row is refused, or the
  reader gives no more of it.  The rows are those of the transaction's beginning
  then.  The blobs are not part of the transaction, but they only become more,
  and what is added is a chunk of what was read, under its own digest.
-/
import DedupArchive.Proofs.Blobs.Separate
import DedupArchive.Proofs.Store.Summary
import DedupArchive.Store.CatalogFile

namespace DedupArchive

/-! ### Rows at the beginning -/

namespace Transaction

theorem before_change (t : Transaction) (step : Catalog → Except CatalogError Catalog) :
    (t.change step).2.before = t.before := by
  rw [change]
  split <;> rfl

theorem before_insertArchive (t : Transaction) (name : String) :
    (t.insertArchive name).2.before = t.before := by
  rw [insertArchive]
  split <;> rfl

end Transaction

/-! ### Chunks of what is delivered -/

/-- What a reader is cut into, up to its failure, are pieces of what it delivers. -/
theorem exists_piece_of_mem_chunksOf {ρ : Type} [Reader ρ] [SteadyReader ρ] {p : Params} {source : ρ}
    {chunk : Chunk} (h : chunk ∈ (chunksOf p source).1) :
    ∃ piece ∈ pieces p (SteadyReader.delivered source).1, chunk = Chunker.ofPiece p piece := by
  rw [chunksOf_delivered] at h
  generalize SteadyReader.delivered source = delivered at h ⊢
  rcases delivered with ⟨data, _ | e⟩
  · change chunk ∈ chunkBytes p data at h
    rw [chunkBytes_eq] at h
    obtain ⟨piece, hpiece, rfl⟩ := List.mem_map.mp h
    exact ⟨piece, hpiece, rfl⟩
  · change chunk ∈ ((Chunker.start p).push data).1 at h
    rw [(push_start p data).1] at h
    obtain ⟨piece, hpiece, rfl⟩ := List.mem_map.mp h
    exact ⟨piece, mem_pieces_of_mem_closedPieces hpiece, rfl⟩

/-- Whether digests are asked for shows in no chunk's bytes and in no blob's digest. -/
theorem exists_chunk_of_mem_chunksOf {ρ : Type} [Reader ρ] [SteadyReader ρ] {p : Params} {source : ρ}
    {hashing : Bool} {chunk : Chunk} (h : chunk ∈ (chunksOf { p with hashing } source).1) :
    ∃ chunk' ∈ chunkBytes p (SteadyReader.delivered source).1,
      chunk.data = chunk'.data ∧ chunk.digest = Digest.of chunk'.data := by
  obtain ⟨piece, hpiece, rfl⟩ := exists_piece_of_mem_chunksOf h
  rw [pieces, cuts_hashing, ← pieces] at hpiece
  refine ⟨Chunker.ofPiece p piece, ?_, rfl, Store.digest_ofPiece _ piece⟩
  rw [chunkBytes_eq]
  exact List.mem_map_of_mem hpiece

namespace Store

open SeparateBlobs (content)

variable {σ : Type} [BlobStore σ] [SeparateBlobs σ]

/-! ### Chunk by chunk -/

/-- Whether a save has gone on by some of the chunks: the rows of its beginning
    are the same, and blobs have been added only. -/
structure Saving.Adds (t t' : Saving σ) (chunks : List Chunk) : Prop where
  before : t'.changes.before = t.changes.before
  blobs : ∀ d, content t'.blobs d = content t.blobs d ∨
    content t.blobs d = none ∧ ∃ chunk ∈ chunks, d = chunk.digest ∧ content t'.blobs d = some chunk.data

namespace Saving.Adds

variable {t t' t'' : Saving σ} {chunks : List Chunk}

theorem refl (t : Saving σ) (chunks : List Chunk) : t.Adds t chunks := ⟨rfl, fun _ => Or.inl rfl⟩

theorem trans (h : t.Adds t' chunks) (h' : t'.Adds t'' chunks) : t.Adds t'' chunks := by
  refine ⟨h'.before.trans h.before, ?_⟩
  intro d
  rcases h'.blobs d with hsame' | ⟨hnone', hadded'⟩
  · rw [hsame']
    exact h.blobs d
  · rcases h.blobs d with hsame | ⟨-, chunk, -, -, hfound⟩
    · exact Or.inr ⟨hsame ▸ hnone', hadded'⟩
    -- what has been added is there and is not added again
    · rw [hnone'] at hfound
      cases hfound

end Saving.Adds

def StopsChunks : StoreError → Prop
  | .blob _ | .catalog _ => True
  | _ => False

omit [SeparateBlobs σ] in
theorem Saving.add_spec (t : Saving σ) (id : Int) (chunk : Chunk) :
    (t.add id chunk).2.changes.before = t.changes.before ∧
      (t.add id chunk).2.blobs = (BlobStore.put t.blobs chunk.digest chunk.data).2 ∧
      ∀ e, (t.add id chunk).1 = .error e → StopsChunks e := by
  rw [add]
  rcases BlobStore.put t.blobs chunk.digest chunk.data with ⟨e | new, blobs⟩
  · refine ⟨rfl, rfl, ?_⟩
    rintro _ ⟨⟩
    trivial
  · have hbefore := t.changes.before_change
      (·.insertChunk id chunk.digest (UInt64.ofNat t.whole.length) (UInt64.ofNat chunk.length))
    dsimp only [Transaction.insertChunk]
    generalize t.changes.change
      (·.insertChunk id chunk.digest (UInt64.ofNat t.whole.length) (UInt64.ofNat chunk.length)) =
      outcome at hbefore ⊢
    rcases outcome with ⟨e | _, changes⟩
    · refine ⟨hbefore, rfl, ?_⟩
      rintro _ ⟨⟩
      trivial
    · refine ⟨hbefore, rfl, ?_⟩
      rintro _ ⟨⟩

theorem Saving.adds_add (t : Saving σ) (id : Int) {chunk : Chunk} {chunks : List Chunk}
    (hchunk : chunk ∈ chunks) : t.Adds (t.add id chunk).2 chunks := by
  obtain ⟨hbefore, hblobs, -⟩ := t.add_spec id chunk
  refine ⟨hbefore, ?_⟩
  intro d
  rw [hblobs]
  rcases SeparateBlobs.content_put t.blobs chunk.digest chunk.data d with hsame | ⟨rfl, hnone, hfound⟩
  · exact Or.inl hsame
  · exact Or.inr ⟨hnone, chunk, hchunk, rfl, hfound⟩

/-- **A run of chunks**, up to its end or to the first that fails. -/
theorem Saving.adds_addAll (t : Saving σ) (id : Int) {chunks all : List Chunk} (hall : chunks ⊆ all) :
    t.Adds (t.addAll id chunks).2 all ∧ ∀ e, (t.addAll id chunks).1 = .error e → StopsChunks e := by
  induction chunks generalizing t with
  | nil => exact ⟨.refl t all, nofun⟩
  | cons chunk rest ih =>
    have hadds := t.adds_add id (hall List.mem_cons_self)
    have hstops := (t.add_spec id chunk).2.2
    rw [addAll]
    generalize t.add id chunk = outcome at hadds hstops ⊢
    rcases outcome with ⟨e | _, t'⟩
    · exact ⟨hadds, hstops⟩
    · obtain ⟨hrest, hstops'⟩ := ih t' fun other hother => hall (List.mem_cons_of_mem chunk hother)
      exact ⟨hadds.trans hrest, hstops'⟩

/-! ### A whole save -/

/-- What is left of a save: the rows as they were, and blobs that have been added. -/
structure Leaves (s after : Store σ) (chunks : List Chunk) : Prop where
  catalog : after.catalog = s.catalog
  blobs : ∀ d, content after.blobs d = content s.blobs d ∨
    content s.blobs d = none ∧ ∃ chunk ∈ chunks, d = chunk.digest ∧ content after.blobs d = some chunk.data

theorem leaves_of_save {ρ : Type} [Reader ρ] {s after : Store σ} {name : String} {source : ρ}
    {e : StoreError} (h : s.save name source = (.error e, after)) :
    s.Leaves after (chunksOf { s.params with hashing := true } source).1 ∧
      (after.blobs = s.blobs ∨ ∀ n, e ≠ .alreadyExists n) := by
  rw [save] at h
  split at h
  · cases h
    exact ⟨⟨rfl, fun d => Or.inl rfl⟩, Or.inl rfl⟩
  · have hbegin := (Transaction.begin s.catalog).before_insertArchive name
    generalize (Transaction.begin s.catalog).insertArchive name = opened at h hbegin
    rcases opened with ⟨e | id, changes⟩
    · cases h
      exact ⟨⟨rfl, fun d => Or.inl rfl⟩, Or.inl rfl⟩
    · dsimp only at h
      generalize chunksOf { s.params with hashing := true } source = cut at h ⊢
      rcases cut with ⟨chunks, failure⟩
      obtain ⟨hadds, hstops⟩ :=
        Saving.adds_addAll ⟨changes, s.blobs, .start, 0, 0⟩ id (List.Subset.refl chunks)
      generalize Saving.addAll ⟨changes, s.blobs, .start, 0, 0⟩ id chunks = added at h hadds hstops
      rcases added with ⟨e | _, saving⟩
      · cases h
        refine ⟨⟨hadds.before.trans hbegin, hadds.blobs⟩, Or.inr ?_⟩
        rintro n rfl
        exact hstops _ rfl
      · rcases failure with _ | e
        · have hfinalize := saving.changes.before_change
            (·.finalize id (UInt64.ofNat saving.whole.length) saving.whole.digest)
          dsimp only [Transaction.finalize] at h
          generalize saving.changes.change
            (·.finalize id (UInt64.ofNat saving.whole.length) saving.whole.digest) =
            finalized at h hfinalize
          rcases finalized with ⟨e | _, changes'⟩
          · cases h
            refine ⟨⟨(hfinalize.trans hadds.before).trans hbegin, hadds.blobs⟩, Or.inr ?_⟩
            rintro n ⟨⟩
          · cases h
        · cases h
          refine ⟨⟨hadds.before.trans hbegin, hadds.blobs⟩, Or.inr ?_⟩
          rintro n ⟨⟩

/-- **A failed save changes nothing visible.**  Whatever stops it, the rows are as
    before, every blob is still there with its bytes, and what has been added are
    chunks of what the reader delivered, each under its own digest; if the name is
    taken, nothing has been added. -/
theorem failed_save_effect {ρ : Type} [Reader ρ] [SteadyReader ρ] {s after : Store σ}
    {isWritable : Bool} {name : String} {source : ρ} {e : StoreError}
    (hsave : s.saveIf isWritable name source = (.error e, after)) :
    after.catalog = s.catalog ∧
      (∀ d data, content s.blobs d = some data → content after.blobs d = some data) ∧
      (∀ d data, content after.blobs d = some data → content s.blobs d = some data ∨
        ∃ chunk ∈ chunkBytes s.params (SteadyReader.delivered source).1,
          d = Digest.of chunk.data ∧ data = chunk.data) ∧
      ∀ n, e = .alreadyExists n → ∀ d, content after.blobs d = content s.blobs d := by
  rw [saveIf] at hsave
  split at hsave
  · obtain ⟨hleaves, htaken⟩ := leaves_of_save hsave
    refine ⟨hleaves.catalog, ?_, ?_, ?_⟩
    · intro d data hfound
      rcases hleaves.blobs d with hsame | ⟨hnone, -⟩
      · rw [hsame, hfound]
      · rw [hfound] at hnone
        cases hnone
    · intro d data hfound
      rcases hleaves.blobs d with hsame | ⟨-, chunk, hchunk, rfl, hadded⟩
      · exact Or.inl (hsame ▸ hfound)
      · obtain ⟨chunk', hchunk', hdata, hdigest⟩ := exists_chunk_of_mem_chunksOf hchunk
        rw [hfound, Option.some.injEq] at hadded
        exact Or.inr ⟨chunk', hchunk', hdigest, hadded.trans hdata⟩
    · intro n he d
      rcases htaken with hsame | hother
      · rw [hsame]
      · exact absurd he (hother n)
  · cases hsave
    exact ⟨rfl, fun _ _ hfound => hfound, fun _ _ hfound => Or.inl hfound, fun _ _ _ => rfl⟩

def brokenOff : Script := [.data [5] none, .failure ⟨.other, "broken off"⟩]

/-- The byte that was read stays as a blob, and no row refers to it. -/
theorem failed_save_effect_brokenOff : ∃ after : Store MemoryBlobs,
    (⟨.empty, .empty, singleBytes, none⟩ : Store MemoryBlobs).saveIf true "a" brokenOff =
      (.error (.chunking (.io ⟨.other, "broken off"⟩)), after) ∧
    after.catalog = .empty ∧ content after.blobs (Digest.of [5]) = some [5] := by
  have hname : (Catalog.empty).archiveId? "a" = none := rfl
  have hfree : ∀ r ∈ Catalog.empty.chunks, r.archive.equals (.integer Catalog.empty.nextId) = false := by
    intro r hr
    cases hr
  have hdelivered : brokenOff.delivered = ([5], some ⟨.other, "broken off"⟩) := by
    simp [brokenOff, Script.delivered]
  have hcut : cut singleBytes brokenOff = [[5]] := by
    rw [cut, chunksOf_of_failure hdelivered, map_data_ofPiece]
    decide
  obtain ⟨blobs, hsave, -, hfind⟩ :=
    save_of_failure (s := ⟨.empty, MemoryBlobs.empty, singleBytes, none⟩) hfree trivial hname
      (by simp [hdelivered]) hdelivered
  have hsave' : (⟨.empty, .empty, singleBytes, none⟩ : Store MemoryBlobs).saveIf true "a" brokenOff =
      (.error (.chunking (.io ⟨.other, "broken off"⟩)), ⟨.empty, blobs, singleBytes, none⟩) := hsave
  obtain ⟨hcatalog, -⟩ := failed_save_effect hsave'
  refine ⟨⟨.empty, blobs, singleBytes, none⟩, hsave', hcatalog, ?_⟩
  show BlobStore.find blobs (Digest.of [5]) = some [5]
  rw [hfind, MemoryBlobs.find_empty, hcut]
  simp [partOf]

end Store

end DedupArchive
