/-
  DedupArchive/Store/Basic.lean
  =============================
  **A store: members cut into chunks, each different chunk kept once.**

  The catalog says of which chunks a member consists, the blob store holds the
  chunks.  A blob is stored before the row that refers to it, and a member shows
  only when its transaction is committed with length and digest.  So a member
  that could not be stored leaves at most blobs that nothing refers to.
  Deleting goes the other way round: blobs first, rows last.
-/
import DedupArchive.Blobs.Basic
import DedupArchive.Catalog.Transaction
import DedupArchive.Files.Tree
import DedupArchive.Reading.ChunkReader
import DedupArchive.Sink
import DedupArchive.Store.Error

namespace DedupArchive

structure Store (σ : Type) where
  catalog : Catalog
  blobs : σ
  params : Params
  home : Option Path

/-- What storing a member did: its record, how many chunks it has, and how many of
    their blobs were not there before. -/
structure SaveSummary where
  archive : ArchiveRecord
  chunks : Nat
  newBlobs : Nat
deriving DecidableEq

namespace Store

variable {σ : Type} [BlobStore σ]

def ofParts (catalog : Catalog) (blobs : σ) (p : Params) : Except StoreError (Store σ) :=
  match p.validate with
  | .ok () => .ok ⟨catalog, blobs, p, none⟩
  | .error e => .error (.chunking (.invalidParams e))

/-! ### Storing -/

/-- A member while it is being stored; `whole` is the digest of the chunks stored so
    far. -/
structure Saving (σ : Type) where
  changes : Transaction
  blobs : σ
  whole : Digest.Running
  chunks : Nat
  newBlobs : Nat

/-- Store one chunk: its blob, then its row. -/
def Saving.add (s : Saving σ) (id : Int) (chunk : Chunk) : Except StoreError Unit × Saving σ :=
  match BlobStore.put s.blobs chunk.digest chunk.data with
  | (.error e, blobs) => (.error (.blob e), { s with blobs })
  | (.ok new, blobs) =>
    let offset := UInt64.ofNat s.whole.length
    match s.changes.insertChunk id chunk.digest offset (UInt64.ofNat chunk.length) with
    | (.error e, changes) => (.error (.catalog e), { s with blobs, changes })
    | (.ok (), changes) =>
      (.ok (),
        { changes
          blobs
          whole := s.whole.feed chunk.data
          chunks := s.chunks + 1
          newBlobs := if new then s.newBlobs + 1 else s.newBlobs })

def Saving.addAll (s : Saving σ) (id : Int) : List Chunk → Except StoreError Unit × Saving σ
  | [] => (.ok (), s)
  | chunk :: rest =>
    match s.add id chunk with
    | (.error e, s) => (.error e, s)
    | (.ok (), s) => s.addAll id rest

/-- Store what a reader gives as a new member.  On any failure the catalog is
    as before; blobs that were stored stay. -/
def save {ρ : Type} [Reader ρ] (s : Store σ) (name : String) (source : ρ) :
    Except StoreError SaveSummary × Store σ :=
  let changes := Transaction.begin s.catalog
  if (s.catalog.archiveId? name).isSome then (.error (.alreadyExists name), s)
  else
    match changes.insertArchive name with
    | (.error e, _) => (.error (if e.isConstraint then .alreadyExists name else .catalog e), s)
    | (.ok id, changes) =>
      let (chunks, failure) := chunksOf { s.params with hashing := true } source
      let (result, saving) := Saving.addAll ⟨changes, s.blobs, .start, 0, 0⟩ id chunks
      let s := { s with blobs := saving.blobs }
      match result, failure with
      | .error e, _ => (.error e, { s with catalog := saving.changes.rollback })
      | .ok (), some e => (.error (.chunking e), { s with catalog := saving.changes.rollback })
      | .ok (), none =>
        let length := saving.whole.length
        let digest := saving.whole.digest
        match saving.changes.finalize id (UInt64.ofNat length) digest with
        | (.error e, changes) => (.error (.catalog e), { s with catalog := changes.rollback })
        | (.ok (), changes) =>
          (.ok ⟨⟨id, name, length, digest⟩, saving.chunks, saving.newBlobs⟩,
            { s with catalog := changes.commit })

/-! ### Loading -/

structure Loading where
  sink : Sink
  whole : Digest.Running

/-- Write one chunk: it must start here, its blob must be there and as long as recorded. -/
def Loading.add (l : Loading) (s : Store σ) (name : String) (row : ChunkRecord) :
    Except StoreError Unit × Loading :=
  if row.offset ≠ l.whole.length then
    (.error (.integrity (.discontinuity name l.whole.length row.offset)), l)
  else
    match BlobStore.get s.blobs row.digest with
    | .error e => (.error (.blob e), l)
    | .ok data =>
      if data.length ≠ row.length then
        (.error (.integrity (.chunkLength name row.digest row.length data.length)), l)
      else
        match l.sink.writeAll data with
        | (.error e, sink) => (.error (.io e), { l with sink })
        | (.ok (), sink) => (.ok (), ⟨sink, l.whole.feed data⟩)

def Loading.addAll (l : Loading) (s : Store σ) (name : String) :
    List ChunkRecord → Except StoreError Unit × Loading
  | [] => (.ok (), l)
  | row :: rest =>
    match l.add s name row with
    | (.error e, l) => (.error e, l)
    | (.ok (), l) => l.addAll s name rest

def Loading.verify (l : Loading) (record : ArchiveRecord) : Except StoreError ArchiveRecord :=
  if l.whole.digest ≠ record.digest then
    .error (.integrity (.archiveDigest record.name record.digest l.whole.digest))
  else if l.whole.length ≠ record.length then
    .error (.integrity (.archiveLength record.name record.length l.whole.length))
  else .ok record

def info (s : Store σ) (name : String) : Except StoreError ArchiveRecord :=
  match s.catalog.archive? name with
  | .error e => .error (.catalog e)
  | .ok none => .error (.notFound name)
  | .ok (some record) => .ok record

/-- Write a member to a sink and check it on the way.  What has been written
    before a failure stays written. -/
def load (s : Store σ) (name : String) (sink : Sink) : Except StoreError ArchiveRecord × Sink :=
  match s.info name with
  | .error e => (.error e, sink)
  | .ok record =>
    match s.catalog.chunksOf record.id with
    | .error e => (.error (.catalog e), sink)
    | .ok rows =>
      match Loading.addAll ⟨sink, .start⟩ s record.name rows with
      | (.error e, l) => (.error e, l.sink)
      | (.ok (), l) =>
        match l.sink.flush with
        | .error e => (.error (.io e), l.sink)
        | .ok () => (l.verify record, l.sink)

/-! ### Deleting and listing -/

/-- Remove the blobs of the given digests that no other archive refers to, up
    to the first failure. -/
def release (changes : Transaction) (id : Int) (blobs : σ) :
    List Digest → Except StoreError Unit × σ
  | [] => (.ok (), blobs)
  | digest :: rest =>
    if changes.current.referencedElsewhere digest id then release changes id blobs rest
    else
      match BlobStore.erase blobs digest with
      | (.error e, blobs) => (.error (.blob e), blobs)
      | (.ok (), blobs) => release changes id blobs rest

/-- Remove a member, finished or not, and every blob that only it refers to. -/
def delete (s : Store σ) (name : String) : Except StoreError Unit × Store σ :=
  let changes := Transaction.begin s.catalog
  match s.catalog.archiveId? name with
  | none => (.error (.notFound name), s)
  | some id =>
    match changes.current.archiveDigests id with
    | .error e => (.error (.catalog e), s)
    | .ok digests =>
      match release changes id s.blobs digests with
      | (.error e, blobs) => (.error e, { s with catalog := changes.rollback, blobs })
      | (.ok (), blobs) => (.ok (), { s with catalog := (changes.deleteArchive id).commit, blobs })

def names (s : Store σ) : Except StoreError (List String) :=
  match s.catalog.archiveNames with
  | .error e => .error (.catalog e)
  | .ok names => .ok names

end Store

end DedupArchive
