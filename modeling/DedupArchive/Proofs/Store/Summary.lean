/-
  DedupArchive/Proofs/Store/Summary.lean
  ======================================
  **What a save that succeeds has done.**

  A save tells how many chunks there are and how many blobs are new.  A chunk that
  occurs again in the same member finds its blob there, so what is counted are the
  digests that nothing lay under, each of them once.  The rows that are added are
  those of the chunks of the whole byte string, however the reader hands it out.
-/
import DedupArchive.Proofs.Blobs.Requests
import DedupArchive.Proofs.Store.Loading
import DedupArchive.Proofs.Store.Saving
import Mathlib.Data.Finset.Card
import Mathlib.Data.Finset.Insert

namespace DedupArchive

/-! ### Digests that are new -/

/-- Those of the digests under which nothing lies. -/
def newDigests (find : Digest → Option Bytes) (digests : List Digest) : Finset Digest :=
  digests.toFinset.filter fun d => find d = none

section NewDigests

variable {find : Digest → Option Bytes} {digests : List Digest} {d : Digest}

theorem mem_newDigests : d ∈ newDigests find digests ↔ d ∈ digests ∧ find d = none := by
  simp [newDigests]

theorem newDigests_concat_of_some (hthere : find d ≠ none) :
    newDigests find (digests ++ [d]) = newDigests find digests := by
  ext e
  simp only [mem_newDigests, List.mem_append, List.mem_singleton]
  constructor
  · rintro ⟨he | rfl, hnone⟩
    · exact ⟨he, hnone⟩
    · exact absurd hnone hthere
  · rintro ⟨he, hnone⟩
    exact ⟨Or.inl he, hnone⟩

theorem newDigests_concat_of_none (hnone : find d = none) :
    newDigests find (digests ++ [d]) = insert d (newDigests find digests) := by
  ext e
  simp only [mem_newDigests, List.mem_append, List.mem_singleton, Finset.mem_insert]
  constructor
  · rintro ⟨he | rfl, hfree⟩
    · exact Or.inr ⟨he, hfree⟩
    · exact Or.inl rfl
  · rintro (rfl | ⟨he, hfree⟩)
    · exact ⟨Or.inr rfl, hnone⟩
    · exact ⟨Or.inl he, hfree⟩

end NewDigests

namespace Store

/-! ### Counting -/

section Counting

variable {σ : Type} [BlobStore σ] [FaithfulBlobs σ] [TransparentBlobs σ] {t t' : Saving σ} {blobs : σ}
  {parts : List Bytes} {id : Int}

structure Saving.Counted (t : Saving σ) (blobs : σ) (parts : List Bytes) : Prop where
  ready : FaithfulBlobs.Ready t.blobs
  find : ∀ d, BlobStore.find t.blobs d = (BlobStore.find blobs d).or (partOf parts d)
  chunks : t.chunks = parts.length
  newBlobs : t.newBlobs = (newDigests (BlobStore.find blobs) (parts.map Digest.of)).card

/-- A blob is new if nothing lay under its digest and no part before it has the digest. -/
theorem card_newDigests_concat (find : Digest → Option Bytes) (parts : List Bytes) (data : Bytes) :
    (newDigests find ((parts ++ [data]).map Digest.of)).card =
      if ((find (Digest.of data)).or (partOf parts (Digest.of data))).isNone then
        (newDigests find (parts.map Digest.of)).card + 1
      else (newDigests find (parts.map Digest.of)).card := by
  rw [List.map_append, List.map_singleton]
  cases hfind : find (Digest.of data) with
  | some found =>
    have hthere : find (Digest.of data) ≠ none := by simp [hfind]
    rw [newDigests_concat_of_some hthere, Option.some_or, Option.isNone_some,
      if_neg Bool.false_ne_true]
  | none =>
    rw [newDigests_concat_of_none hfind, Option.none_or]
    cases hpart : partOf parts (Digest.of data) with
    | none =>
      rw [Option.isNone_none, if_pos rfl, Finset.card_insert_of_notMem]
      rw [mem_newDigests, List.mem_map]
      rintro ⟨⟨other, hother, heq⟩, -⟩
      exact partOf_eq_none_iff.mp hpart other hother heq
    | some part =>
      obtain ⟨hmem, heq⟩ := partOf_eq_some hpart
      rw [Option.isNone_some, if_neg Bool.false_ne_true, Finset.insert_eq_of_mem]
      rw [mem_newDigests, List.mem_map]
      exact ⟨⟨part, hmem, heq⟩, hfind⟩

/-- **One chunk more.** -/
theorem Saving.Counted.add (h : t.Counted blobs parts) {chunk : Chunk}
    (hdigest : chunk.digest = Digest.of chunk.data) (hadd : t.add id chunk = (.ok (), t')) :
    t'.Counted blobs (parts ++ [chunk.data]) := by
  obtain ⟨new, after, hput, hready, hfind⟩ :=
    FaithfulBlobs.put_spec (Digest.of chunk.data) chunk.data h.ready
  have hnew := TransparentBlobs.put_new (Digest.of chunk.data) chunk.data h.ready
  rw [hput, Except.ok.injEq, h.find] at hnew
  rw [Saving.add, hdigest, hput] at hadd
  simp only at hadd
  split at hadd
  · cases hadd
  · cases hadd
    refine ⟨hready, ?_, ?_, ?_⟩
    · intro d
      rw [hfind, h.find, partOf_append, Option.or_assoc]
    · rw [h.chunks, List.length_append, List.length_singleton]
    · rw [card_newDigests_concat, ← hnew, h.newBlobs]

/-- **A run of chunks.** -/
theorem Saving.Counted.addAll (h : t.Counted blobs parts) {chunks : List Chunk}
    (hdigests : ∀ chunk ∈ chunks, chunk.digest = Digest.of chunk.data)
    (hadd : t.addAll id chunks = (.ok (), t')) : t'.Counted blobs (parts ++ chunks.map (·.data)) := by
  induction chunks generalizing t parts with
  | nil =>
    cases hadd
    rw [List.map_nil, List.append_nil]
    exact h
  | cons chunk rest ih =>
    rw [Saving.addAll] at hadd
    split at hadd
    · cases hadd
    · rename_i t₁ hfirst
      rw [List.map_cons, List.append_cons]
      apply ih (h.add (hdigests chunk List.mem_cons_self) hfirst)
      · intro chunk' hchunk'
        exact hdigests chunk' (List.mem_cons_of_mem chunk hchunk')
      · exact hadd

end Counting

/-! ### The rows of the chunks -/

def rowOf (id : Int) (chunk : Chunk) : ChunkRow :=
  ⟨.integer id, chunk.digest.cell, .integer chunk.first, .integer chunk.length⟩

theorem layout_piecesFrom {data : Bytes} {position : Nat} {cuts : List Nat} (id : Int)
    (hascend : (position :: cuts).Pairwise (· < ·)) (hbound : ∀ cut ∈ cuts, cut ≤ data.length) :
    Catalog.layout id position ((piecesFrom data position cuts).map (·.2)) =
      (piecesFrom data position cuts).map fun piece =>
        ⟨.integer id, (Digest.of piece.2).cell, .integer piece.1, .integer piece.2.length⟩ := by
  induction cuts generalizing position with
  | nil =>
    rw [piecesFrom]
    split
    · rfl
    · rfl
  | cons cut rest ih =>
    obtain ⟨hfirst, hrest⟩ := List.pairwise_cons.mp hascend
    have hlt : position < cut := hfirst cut List.mem_cons_self
    have hle : cut ≤ data.length := hbound cut List.mem_cons_self
    have hnext : position + ((data.drop position).take (cut - position)).length = cut := by
      rw [List.length_take, List.length_drop]
      omega
    rw [piecesFrom, List.map_cons, List.map_cons, Catalog.layout, hnext,
      ih hrest fun c hc => hbound c (List.mem_cons_of_mem cut hc)]

section ChunkBytes

variable (p : Params) (data : Bytes)

theorem cut_eq {script : Script} (h : script.delivered = (data, none)) :
    cut p script = (chunkBytes p data).map (·.data) := by
  rw [cut, chunksOf_of_delivered h, chunkBytes_eq, map_data_ofPiece, map_data_ofPiece, pieces, pieces,
    cuts_hashing]

theorem layout_chunkBytes (id : Int) :
    Catalog.layout id 0 ((chunkBytes p data).map (·.data)) = (chunkBytes p data).map (rowOf id) := by
  rw [chunkBytes_eq, map_data_ofPiece, pieces,
    layout_piecesFrom id (cuts_ascend p data).1 (cuts_ascend p data).2, List.map_map]
  apply List.map_congr_left
  intro piece _
  rw [Function.comp_apply, rowOf, digest_ofPiece]
  rfl

theorem digests_chunkBytes :
    ((chunkBytes p data).map (·.data)).map Digest.of = (chunkBytes p data).map (·.digest) := by
  rw [chunkBytes_eq, map_data_ofPiece, List.map_map, List.map_map]
  apply List.map_congr_left
  intro piece _
  rw [Function.comp_apply, Function.comp_apply, digest_ofPiece]

theorem partOf_chunkBytes (d : Digest) : partOf ((chunkBytes p data).map (·.data)) d =
    ((chunkBytes p data).find? (·.digest = d)).map (·.data) := by
  -- a chunk has the digest of its bytes, so either of them finds the same one
  rw [partOf, chunkBytes_eq, map_data_ofPiece, List.find?_map, List.find?_map, Option.map_map]
  have hsame : (fun data => decide (Digest.of data = d)) ∘ (fun piece : Nat × Bytes => piece.2) =
      (fun chunk : Chunk => decide (chunk.digest = d)) ∘ Chunker.ofPiece p := by
    funext piece
    rw [Function.comp_apply, Function.comp_apply, digest_ofPiece]
  rw [hsame]
  rfl

end ChunkBytes

/-! ### A whole save -/

/-- What a reader delivers is all that matters of it. -/
theorem save_congr {σ ρ ρ' : Type} [BlobStore σ] [Reader ρ] [SteadyReader ρ] [Reader ρ'] [SteadyReader ρ']
    (s : Store σ) (name : String) {source : ρ} {source' : ρ'}
    (h : SteadyReader.delivered source = SteadyReader.delivered source') :
    s.save name source = s.save name source' := by
  have hchunks : chunksOf { s.params with hashing := true } source =
      chunksOf { s.params with hashing := true } source' := by
    rw [chunksOf_delivered, chunksOf_delivered, h]
  rw [save, save, hchunks]

section Save

variable {σ : Type} [BlobStore σ] [FaithfulBlobs σ] [TransparentBlobs σ] {s : Store σ}

/-- **What a save does.**  A reader that comes to its end is stored under a name
    that is free.  The summary has the length and the digest of what it delivers,
    counts the chunks of that, and counts each digest once that nothing lay under.
    Added are one archive row, one row for each chunk, and for each digest that
    nothing lay under the bytes of the first chunk that has it. -/
theorem save_effect (hlawful : s.catalog.Lawful) (hlinked : s.catalog.Linked)
    (hready : FaithfulBlobs.Ready s.blobs) {name : String} (hname : s.catalog.archiveId? name = none)
    {ρ : Type} [Reader ρ] [SteadyReader ρ] {source : ρ} {data : Bytes}
    (hdelivered : SteadyReader.delivered source = (data, none)) (hfits : data.length < 2 ^ 63) :
    let chunks := chunkBytes s.params data
    let record : ArchiveRecord := ⟨s.catalog.nextId, name, data.length, Digest.of data⟩
    ∃ blobs : σ,
      s.save name source =
        (.ok ⟨record, chunks.length, (newDigests (BlobStore.find s.blobs) (chunks.map (·.digest))).card⟩,
          { s with
            catalog.archives := record.row :: s.catalog.archives
            catalog.chunks := (chunks.map (rowOf record.id)).reverse ++ s.catalog.chunks
            blobs }) ∧
      (s.save name source).2.info name = .ok record ∧
      ∀ d, BlobStore.find blobs d =
        (BlobStore.find s.blobs d).or ((chunks.find? (·.digest = d)).map (·.data)) := by
  intro chunks record
  -- all bytes might as well come at once
  have hscript := Script.delivered_single data
  have hsame : SteadyReader.delivered source = SteadyReader.delivered ([.data data none] : Script) :=
    hdelivered.trans hscript.symm
  rw [s.save_congr name hsame]
  have hlength : (Script.delivered [.data data none]).1.length < 2 ^ 63 := by
    rw [hscript]
    exact hfits
  have hfree := hlinked.next_free
  obtain ⟨t, hadd, ht⟩ := exists_reached hfree hready hlength name
  have hsave := save_of_reached hname hlength hscript hadd ht
  have hparts : cut s.params [.data data none] = chunks.map (·.data) := cut_eq s.params data hscript
  have hcounted : t.Counted s.blobs (chunks.map (·.data)) := by
    have hstart : (s.opening name).Counted s.blobs [] :=
      ⟨hready, fun d => Option.or_none.symm, rfl, rfl⟩
    have hend := hstart.addAll (fun chunk hchunk => (chunk_of_mem_chunksOf hchunk).1) hadd
    rw [List.nil_append] at hend
    exact hparts ▸ hend
  have hlawful' := hlawful.enter (admits_of_delivered hfree hname hlength hscript)
  refine ⟨t.blobs, ?_, ?_, ?_⟩
  · rw [hsave, hcounted.chunks, hcounted.newBlobs, digests_chunkBytes, List.length_map, Catalog.enter,
      hparts, layout_chunkBytes]
    rfl
  · rw [hsave]
    exact info_of_mem (a := record) hlawful' List.mem_cons_self
  · intro d
    rw [hcounted.find, partOf_chunkBytes]

def singleBytes : Params := ⟨1, 0, 1, 1, some 1, false⟩

/-- A byte that occurs twice is counted and stored once. -/
theorem save_effect_twoFives : ∃ s' : Store MemoryBlobs,
    (⟨.empty, .empty, singleBytes, none⟩ : Store MemoryBlobs).save "a" ([.data [5, 5] none] : Script) =
      (.ok ⟨⟨1, "a", 2, Digest.of [5, 5]⟩, 2, 1⟩, s') ∧
    s'.info "a" = .ok ⟨1, "a", 2, Digest.of [5, 5]⟩ ∧
    BlobStore.find s'.blobs (Digest.of [5]) = some [5] := by
  have hchunks : chunkBytes singleBytes [5, 5] = [⟨[5], some 0, none⟩, ⟨[5], some 1, none⟩] := by decide
  have hdigests : (chunkBytes singleBytes [5, 5]).map (·.digest) = [Digest.of [5]] ++ [Digest.of [5]] := by
    rw [hchunks]
    rfl
  have hcount : (newDigests (BlobStore.find MemoryBlobs.empty)
      ((chunkBytes singleBytes [5, 5]).map (·.digest))).card = 1 := by
    rw [hdigests, newDigests_concat_of_none (MemoryBlobs.find_empty _)]
    simp [newDigests, MemoryBlobs.find_empty]
  have hname : (Catalog.empty).archiveId? "a" = none := rfl
  have hdelivered : SteadyReader.delivered ([.data [5, 5] none] : Script) = ([5, 5], none) :=
    Script.delivered_single [5, 5]
  obtain ⟨blobs, hsave, hinfo, hfind⟩ :=
    save_effect (s := ⟨.empty, MemoryBlobs.empty, singleBytes, none⟩) Catalog.lawful_empty
      Catalog.linked_empty trivial hname hdelivered (by decide)
  rw [hsave] at hinfo ⊢
  refine ⟨_, ?_, hinfo, ?_⟩
  · rw [hcount, hchunks]
    rfl
  · rw [hfind, MemoryBlobs.find_empty, Option.none_or, hchunks, List.find?_cons_of_pos, Option.map_some]
    rw [decide_eq_true_iff]
    rfl

end Save

end Store

end DedupArchive
