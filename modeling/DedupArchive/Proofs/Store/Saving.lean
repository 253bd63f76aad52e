/-
  DedupArchive/Proofs/Store/Saving.lean
  =====================================
  **What storing a member does.**

  Chunk after chunk a save puts a blob and lays down a row; `Saving.Reached` says
  where it stands after some parts, and one chunk more takes it one part
  further.  At the end the catalog has one archive more, or is as before if the
  reader failed; either way the blob store has all that it had and the parts.
-/
import DedupArchive.Proofs.Blobs.Faithful
import DedupArchive.Proofs.Catalog.Growth
import DedupArchive.Proofs.Reading.Delivered
import DedupArchive.Store.Basic

namespace DedupArchive

/-- The first of some parts that has a digest. -/
def partOf (parts : List Bytes) (d : Digest) : Option Bytes :=
  parts.find? fun data => Digest.of data = d

theorem partOf_append (parts : List Bytes) (data : Bytes) (d : Digest) :
    partOf (parts ++ [data]) d =
      (partOf parts d).or (if Digest.of data = d then some data else none) := by
  rw [partOf, partOf, List.find?_append]
  by_cases h : Digest.of data = d
  · rw [if_pos h, List.find?_singleton, if_pos (decide_eq_true h)]
  · rw [if_neg h, List.find?_singleton, if_neg (by simpa using h)]

theorem partOf_eq_some {parts : List Bytes} {d : Digest} {data : Bytes}
    (h : partOf parts d = some data) : data ∈ parts ∧ Digest.of data = d :=
  ⟨List.mem_of_find?_eq_some h, by simpa using List.find?_some h⟩

theorem partOf_eq_none_iff {parts : List Bytes} {d : Digest} :
    partOf parts d = none ↔ ∀ data ∈ parts, Digest.of data ≠ d := by
  unfold partOf
  simp only [List.find?_eq_none, decide_eq_true_eq, ne_eq]

theorem exists_partOf {parts : List Bytes} {data : Bytes} (hdata : data ∈ parts) :
    ∃ part, partOf parts (Digest.of data) = some part := by
  rw [← Option.isSome_iff_exists, partOf, List.find?_isSome]
  exact ⟨data, hdata, decide_eq_true rfl⟩

/-- Every part is there afterwards, if nothing else lay under its digest before. -/
theorem find_part_of_put {parts : List Bytes} {find find' : Digest → Option Bytes}
    (hfind : ∀ d, find' d = (find d).or (partOf parts d))
    (hright : ∀ data ∈ parts, ∀ found, find (Digest.of data) = some found → found = data)
    (hdistinct : Set.InjOn Digest.of {data | data ∈ parts}) :
    ∀ data ∈ parts, find' (Digest.of data) = some data := by
  intro data hdata
  rw [hfind]
  cases hfound : find (Digest.of data) with
  | some found => rw [Option.some_or, hright data hdata found hfound]
  | none =>
    obtain ⟨part, hpart⟩ := exists_partOf hdata
    obtain ⟨hmem, heq⟩ := partOf_eq_some hpart
    rw [Option.none_or, hpart, hdistinct hmem hdata heq]

namespace Store

variable {σ : Type} [BlobStore σ] [FaithfulBlobs σ]

/-! ### Chunk by chunk -/

structure Saving.Reached (t : Saving σ) (c : Catalog) (blobs : σ) (opened : ArchiveRow)
    (parts : List Bytes) : Prop where
  before : t.changes.before = c
  current : t.changes.current =
    ⟨opened :: c.archives, (Catalog.layout opened.id 0 parts).reverse ++ c.chunks⟩
  whole : t.whole = Digest.Running.start.feed parts.flatten
  ready : FaithfulBlobs.Ready t.blobs
  find : ∀ d, BlobStore.find t.blobs d = (BlobStore.find blobs d).or (partOf parts d)

variable {t : Saving σ} {c : Catalog} {blobs : σ} {opened : ArchiveRow} {parts : List Bytes}

theorem Saving.Reached.whole_length (h : t.Reached c blobs opened parts) :
    t.whole.length = parts.flatten.length := by
  rw [h.whole]
  exact Nat.zero_add _

/-- The place after the parts is free. -/
theorem Saving.Reached.place_free (h : t.Reached c blobs opened parts)
    (hfree : ∀ r ∈ c.chunks, r.archive.equals (.integer opened.id) = false)
    (hparts : ∀ data ∈ parts, data ≠ []) : ∀ r ∈ t.changes.current.chunks,
      r.archive.equals (.integer opened.id) = true →
        r.offset.equals (.integer parts.flatten.length) = false := by
  rw [h.current]
  intro r hr hthis
  rcases List.mem_append.mp hr with hr | hr
  · obtain ⟨data, hdata, offset, -, hlast, rfl⟩ :=
      Catalog.exists_of_mem_layout (List.mem_reverse.mp hr)
    have hpositive := List.length_pos_iff.mpr (hparts data hdata)
    rw [← Bool.not_eq_true, Cell.equals_integer_iff]
    simp only [Cell.integer.injEq, Int.ofNat_inj, reduceCtorEq, or_false]
    omega
  · rw [hfree r hr] at hthis
    cases hthis

/-- One chunk more. -/
theorem Saving.Reached.add (h : t.Reached c blobs opened parts)
    (hfree : ∀ r ∈ c.chunks, r.archive.equals (.integer opened.id) = false)
    (hparts : ∀ data ∈ parts, data ≠ []) {chunk : Chunk}
    (hdigest : chunk.digest = Digest.of chunk.data) (hne : chunk.data ≠ [])
    (hfits : (parts ++ [chunk.data]).flatten.length < 2 ^ 63) :
    ∃ t', t.add opened.id chunk = (.ok (), t') ∧
      t'.Reached c blobs opened (parts ++ [chunk.data]) := by
  rw [List.flatten_append, List.flatten_singleton, List.length_append] at hfits
  obtain ⟨new, blobs', hput, hready, hfind⟩ :=
    FaithfulBlobs.put_spec (Digest.of chunk.data) chunk.data h.ready
  have hinsert := Catalog.insertChunk_eq (c := t.changes.current) (d := Digest.of chunk.data)
    (show parts.flatten.length < 2 ^ 63 by omega) (show chunk.data.length < 2 ^ 63 by omega)
    (List.length_pos_iff.mpr hne) (h.place_free hfree hparts)
    ⟨opened, by rw [h.current]; exact List.mem_cons_self, rfl⟩
  rw [Saving.add, hdigest, hput]
  simp only [h.whole_length, Chunk.length, Transaction.insertChunk, Transaction.change, hinsert]
  refine ⟨_, rfl, ?_, ?_, ?_, hready, ?_⟩
  · exact h.before
  · rw [h.current, Catalog.layout_append, List.reverse_append, Nat.zero_add]
    rfl
  · rw [h.whole, List.flatten_append, List.flatten_singleton, Digest.Running.feed_append]
  · intro d
    rw [hfind, h.find, partOf_append, Option.or_assoc]

/-- **A run of chunks.** -/
theorem Saving.Reached.addAll (h : t.Reached c blobs opened parts)
    (hfree : ∀ r ∈ c.chunks, r.archive.equals (.integer opened.id) = false)
    (hparts : ∀ data ∈ parts, data ≠ []) {chunks : List Chunk}
    (hchunks : ∀ chunk ∈ chunks, chunk.digest = Digest.of chunk.data ∧ chunk.data ≠ [])
    (hfits : (parts ++ chunks.map (·.data)).flatten.length < 2 ^ 63) :
    ∃ t', t.addAll opened.id chunks = (.ok (), t') ∧
      t'.Reached c blobs opened (parts ++ chunks.map (·.data)) := by
  induction chunks generalizing t parts with
  | nil =>
    rw [List.map_nil, List.append_nil]
    exact ⟨t, rfl, h⟩
  | cons chunk rest ih =>
    have hwhole : parts ++ (chunk :: rest).map (·.data) =
        (parts ++ [chunk.data]) ++ rest.map (·.data) := by
      rw [List.map_cons, List.append_assoc, List.singleton_append]
    rw [hwhole] at hfits ⊢
    obtain ⟨hdigest, hne⟩ := hchunks chunk List.mem_cons_self
    have hfirst : (parts ++ [chunk.data]).flatten.length < 2 ^ 63 := by
      rw [List.flatten_append, List.length_append] at hfits
      omega
    obtain ⟨t', hadd, ht'⟩ := h.add hfree hparts hdigest hne hfirst
    rw [Saving.addAll, hadd]
    refine ih ht' ?_ (fun chunk' hchunk' => hchunks chunk' (List.mem_cons_of_mem chunk hchunk')) hfits
    intro data hdata
    rcases List.mem_append.mp hdata with hdata | hdata
    · exact hparts data hdata
    · rw [List.mem_singleton.mp hdata]
      exact hne

/-! ### A whole member -/

def cut (p : Params) (script : Script) : List Bytes :=
  (chunksOf { p with hashing := true } script).1.map (·.data)

theorem digest_ofPiece (p : Params) (piece : Nat × Bytes) :
    (Chunker.ofPiece p piece).digest = Digest.of piece.2 := by
  rw [Chunker.ofPiece, Chunker.chunkOf, Chunk.digest]
  cases p.hashing <;> rfl

theorem chunk_of_mem_chunksOf {p : Params} {script : Script} {chunk : Chunk}
    (h : chunk ∈ (chunksOf p script).1) : chunk.digest = Digest.of chunk.data ∧ chunk.data ≠ [] := by
  have hpiece (piece : Nat × Bytes) (hpiece : piece ∈ pieces p script.delivered.1) :
      (Chunker.ofPiece p piece).digest = Digest.of (Chunker.ofPiece p piece).data ∧
        (Chunker.ofPiece p piece).data ≠ [] :=
    ⟨digest_ofPiece p piece, ne_nil_of_mem_pieces hpiece⟩
  rcases hdelivered : script.delivered with ⟨data, failure⟩
  rw [hdelivered] at hpiece
  cases failure with
  | none =>
    rw [chunksOf_of_delivered hdelivered] at h
    obtain ⟨piece, hmem, rfl⟩ := List.mem_map.mp h
    exact hpiece piece hmem
  | some e =>
    rw [chunksOf_of_failure hdelivered] at h
    obtain ⟨piece, hmem, rfl⟩ := List.mem_map.mp h
    exact hpiece piece (mem_pieces_of_mem_closedPieces hmem)

theorem map_data_ofPiece (p : Params) (all : List (Nat × Bytes)) :
    (all.map (Chunker.ofPiece p)).map (·.data) = all.map (·.2) := by
  rw [List.map_map]
  rfl

theorem flatten_cut {p : Params} {script : Script} {data : Bytes}
    (h : script.delivered = (data, none)) : (cut p script).flatten = data := by
  rw [cut, chunksOf_of_delivered h, map_data_ofPiece, flatten_pieces]

theorem length_flatten_cut_le (p : Params) (script : Script) :
    (cut p script).flatten.length ≤ script.delivered.1.length := by
  rcases hdelivered : script.delivered with ⟨data, failure⟩
  cases failure with
  | none => rw [flatten_cut hdelivered]
  | some e =>
    rw [cut, chunksOf_of_failure hdelivered, map_data_ofPiece]
    exact length_flatten_closedPieces _ data

theorem ne_nil_of_mem_cut {p : Params} {script : Script} {data : Bytes} (h : data ∈ cut p script) :
    data ≠ [] := by
  obtain ⟨chunk, hchunk, rfl⟩ := List.mem_map.mp h
  exact (chunk_of_mem_chunksOf hchunk).2

section Save

variable {s : Store σ} {name : String} {script : Script}

def opening (s : Store σ) (name : String) : Saving σ where
  changes := ⟨s.catalog, { s.catalog with
    archives := ⟨s.catalog.nextId, .text name, .null, .null⟩ :: s.catalog.archives }⟩
  blobs := s.blobs
  whole := .start
  chunks := 0
  newBlobs := 0

omit [FaithfulBlobs σ] in
theorem save_of_bound (h : s.catalog.archiveId? name ≠ none) :
    s.save name script = (.error (.alreadyExists name), s) := by
  rw [save, if_pos (Option.isSome_iff_ne_none.mpr h)]

variable (hfree : ∀ r ∈ s.catalog.chunks, r.archive.equals (.integer s.catalog.nextId) = false)
  (hready : FaithfulBlobs.Ready s.blobs) (hname : s.catalog.archiveId? name = none)
  (hfits : script.delivered.1.length < 2 ^ 63)

include hfree hready hname hfits

omit hname in
/-- All chunks of a script are stored, whether it fails in the end or not. -/
theorem exists_reached (name : String) : ∃ t : Saving σ,
    (s.opening name).addAll s.catalog.nextId (chunksOf { s.params with hashing := true } script).1 =
      (.ok (), t) ∧
    t.Reached s.catalog s.blobs ⟨s.catalog.nextId, .text name, .null, .null⟩ (cut s.params script) := by
  have hstart : (s.opening name).Reached s.catalog s.blobs
      ⟨s.catalog.nextId, .text name, .null, .null⟩ [] := by
    refine ⟨rfl, rfl, rfl, hready, ?_⟩
    intro d
    exact (Option.or_none).symm
  exact hstart.addAll hfree (fun data hdata => nomatch hdata)
    (fun chunk hchunk => chunk_of_mem_chunksOf hchunk)
    (Nat.lt_of_le_of_lt (length_flatten_cut_le s.params script) hfits)

/-- A member whose reader fails leaves the catalog as it was. -/
theorem save_of_failure {data : Bytes} {e : IoError} (hfailure : script.delivered = (data, some e)) :
    ∃ blobs, s.save name script = (.error (.chunking (.io e)), { s with blobs }) ∧
      FaithfulBlobs.Ready blobs ∧
      ∀ d, BlobStore.find blobs d = (BlobStore.find s.blobs d).or (partOf (cut s.params script) d) := by
  obtain ⟨t, hadd, ht⟩ := exists_reached hfree hready hfits name
  unfold opening at hadd
  refine ⟨t.blobs, ?_, ht.ready, ht.find⟩
  have hsome : (s.catalog.archiveId? name).isSome = false := by rw [hname]; rfl
  have hchunks : (chunksOf { s.params with hashing := true } script).2 = some (.io e) := by
    rw [chunksOf_of_failure hfailure]
  simp only [save, hsome, Bool.false_eq_true, if_false, Transaction.begin, Transaction.insertArchive,
    Catalog.insertArchive_eq hname, hadd, hchunks, Transaction.rollback, ht.before]

def recordOf (s : Store σ) (name : String) (data : Bytes) : ArchiveRecord :=
  ⟨s.catalog.nextId, name, data.length, Digest.of data⟩

omit hready [FaithfulBlobs σ] [BlobStore σ] in
/-- The catalog has room for a member whose reader comes to its end. -/
theorem admits_of_delivered {data : Bytes} (hdelivered : script.delivered = (data, none)) :
    s.catalog.Admits (s.recordOf name data) (cut s.params script) where
  id_new _ hr := Catalog.ne_nextId hr
  name_new := hname
  no_chunks := hfree
  parts_ne _ hpart := ne_nil_of_mem_cut hpart
  length := congrArg List.length (flatten_cut hdelivered)
  fits := by
    rw [hdelivered] at hfits
    exact hfits

omit hfree hready in
/-- Where all chunks are stored and the reader came to its end, the member is entered. -/
theorem save_of_reached {data : Bytes} (hdelivered : script.delivered = (data, none)) {t : Saving σ}
    (hadd : (s.opening name).addAll s.catalog.nextId (chunksOf { s.params with hashing := true } script).1 =
      (.ok (), t))
    (ht : t.Reached s.catalog s.blobs ⟨s.catalog.nextId, .text name, .null, .null⟩ (cut s.params script)) :
    s.save name script = (.ok ⟨s.recordOf name data, t.chunks, t.newBlobs⟩,
      { s with
        catalog := s.catalog.enter (s.recordOf name data) (cut s.params script), blobs := t.blobs }) := by
  unfold opening at hadd
  have hsome : (s.catalog.archiveId? name).isSome = false := by rw [hname]; rfl
  have hchunks : (chunksOf { s.params with hashing := true } script).2 = none := by
    rw [chunksOf_of_delivered hdelivered]
  have hwhole : t.whole = Digest.Running.start.feed data := by
    rw [ht.whole, flatten_cut hdelivered]
  have hlength : t.whole.length = data.length := by
    rw [hwhole]
    exact Nat.zero_add _
  have hdigest : t.whole.digest = Digest.of data := by
    rw [hwhole, Digest.Running.digest_start_feed]
  have hsize : data.length < 2 ^ 63 := by
    rw [hdelivered] at hfits
    exact hfits
  have harchives : t.changes.current.archives =
      ⟨s.catalog.nextId, .text name, .null, .null⟩ :: s.catalog.archives := by rw [ht.current]
  have hfinalize := Catalog.finalize_eq harchives rfl (fun r hr => Catalog.ne_nextId hr) hsize
    (Digest.of data)
  simp only [save, hsome, Bool.false_eq_true, if_false, Transaction.begin, Transaction.insertArchive,
    Catalog.insertArchive_eq hname, hadd, hchunks, Transaction.finalize, Transaction.change, hlength,
    hdigest, hfinalize, Transaction.commit]
  rw [ht.current]
  rfl

/-- A member whose reader comes to its end is entered. -/
theorem save_of_delivered {data : Bytes} (hdelivered : script.delivered = (data, none)) :
    ∃ summary blobs, s.save name script = (.ok summary,
        { s with catalog := s.catalog.enter (s.recordOf name data) (cut s.params script), blobs }) ∧
      summary.archive = s.recordOf name data ∧ FaithfulBlobs.Ready blobs ∧
      ∀ d, BlobStore.find blobs d = (BlobStore.find s.blobs d).or (partOf (cut s.params script) d) := by
  obtain ⟨t, hadd, ht⟩ := exists_reached hfree hready hfits name
  have hsave := save_of_reached hname hfits hdelivered hadd ht
  exact ⟨_, t.blobs, hsave, rfl, ht.ready, ht.find⟩

end Save

end Store

end DedupArchive
