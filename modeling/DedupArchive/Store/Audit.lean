/-
  DedupArchive/Store/Audit.lean
  =============================
  **Checking a whole store.**

  An audit compares the catalog with the blobs and changes neither.  Whatever
  disagrees is a finding; the audit itself fails only if the catalog cannot be
  read or the blobs cannot be listed.  It goes in six steps: unfinished
  archives, coverage of each archive by its chunks, blobs that nothing refers
  to, blobs that are referred to, digests of archives, lengths of archives.
-/
import Std.Data.ExtTreeSet
import DedupArchive.Store.Basic

namespace DedupArchive

/-- Something that is wrong with a store: bytes of an archive that no chunk covers, a
    chunk that starts before the one before it ends, a blob that no chunk refers to or
    that is not as recorded, an archive that is not. -/
inductive Finding where
  | gap (name : String) (first last : Nat)
  | overlap (name : String) (offset : Nat)
  | orphanBlob (digest : Digest)
  | unreadableBlob (digest : Digest) (error : String)
  | wrongSize (digest : Digest) (expected actual : Nat)
  | corruptBlob (digest actual : Digest)
  | archiveHashMismatch (name : String) (expected actual : Digest)
  | archiveLengthMismatch (name : String) (expected actual : Nat)
  | archiveUnreadable (name : String) (digest : Digest) (error : String)
  | unfinishedArchive (name : String)
deriving DecidableEq, Repr

def Finding.message : Finding → String
  | .gap name first last => s!"hole in {name} found between {first} and {last}"
  | .overlap name offset => s!"chunk at offset {offset} for {name} has an overlap"
  | .orphanBlob digest => s!"unknown object {digest}"
  | .unreadableBlob digest error => s!"could not read chunk {digest}: {error}"
  | .wrongSize digest expected actual =>
    s!"chunk {digest} wrong size: {actual} bytes, expected {expected}"
  | .corruptBlob digest actual => s!"chunk {digest} corrupt: contents hash to {actual}"
  | .archiveHashMismatch name expected actual =>
    s!"archive {name} hash mismatch: expected {expected}, got {actual}"
  | .archiveLengthMismatch name expected actual =>
    s!"archive {name} length mismatch: recorded {expected}, chunks sum to {actual}"
  | .archiveUnreadable name digest error => s!"archive {name} unreadable at chunk {digest}: {error}"
  | .unfinishedArchive name => s!"archive {name} was never finished"

/-- What was found, in the order of the steps, and how many completed archives and how
    many different blobs were looked at. -/
structure AuditReport where
  findings : List Finding
  archives : Nat
  blobs : Nat
deriving DecidableEq

namespace AuditReport

def isClean (r : AuditReport) : Bool := r.findings.isEmpty

def text (r : AuditReport) : String := String.join (r.findings.map fun f => f.message ++ "\n")

end AuditReport

namespace Store

variable {σ : Type} [BlobStore σ]

/-! ### The six steps -/

def readCatalog {α : Type} (answer : Except CatalogError α) : Except StoreError α :=
  answer.mapError .catalog

/-- Where chunks, in the order of their offsets, leave a gap or overlap. -/
def coverage (name : String) (expected : Nat) : List ChunkRecord → List Finding
  | [] => []
  | row :: rest =>
    if expected < row.offset then .gap name expected row.offset :: coverage name row.last rest
    else if row.offset < expected then .overlap name row.offset :: coverage name row.last rest
    else coverage name row.last rest

def findUnfinished (s : Store σ) : Except StoreError (List Finding) := do
  let names ← readCatalog s.catalog.unfinished
  return names.map .unfinishedArchive

def findUncovered (s : Store σ) (archives : List ArchiveRecord) :
    Except StoreError (List Finding) := do
  let found ← archives.mapM fun archive => do
    let rows ← readCatalog (s.catalog.chunksOf archive.id)
    return coverage archive.name 0 rows
  return found.flatten

def findOrphans (s : Store σ) : Except StoreError (List Finding) := do
  let referenced ← readCatalog s.catalog.referenced
  let stored ← (BlobStore.digests s.blobs).mapError StoreError.blob
  let live := Std.ExtTreeSet.ofList (referenced.map (·.1)) compare
  return (stored.filter fun digest => !live.contains digest).map .orphanBlob

/-- What is wrong with a blob that should have the given length. -/
def checkBlob (s : Store σ) (digest : Digest) (expected : Nat) : List Finding :=
  match BlobStore.get s.blobs digest with
  | .error e => [.unreadableBlob digest e.message]
  | .ok data =>
    if data.length ≠ expected then [.wrongSize digest expected data.length]
    else
      let actual := Digest.of data
      if actual ≠ digest then [.corruptBlob digest actual] else []

/-- Blobs that cannot be read, or have a wrong length or wrong bytes; and how
    many different blobs are referred to. -/
def findDamaged (s : Store σ) : Except StoreError (List Finding × Nat) := do
  let referenced ← readCatalog s.catalog.referenced
  return (referenced.flatMap fun (digest, length) => s.checkBlob digest length,
    (referenced.map (·.1)).eraseReps.length)

/-- The digest of an archive put together from its chunks, or what is wrong
    with the first chunk that cannot be read. -/
def reassemble (s : Store σ) (name : String) (whole : Digest.Running) :
    List ChunkRecord → Except Finding Digest
  | [] => .ok whole.digest
  | row :: rest =>
    match BlobStore.get s.blobs row.digest with
    | .error e => .error (.archiveUnreadable name row.digest e.message)
    | .ok data => s.reassemble name (whole.feed data) rest

def findMismatched (s : Store σ) (archives : List ArchiveRecord) :
    Except StoreError (List Finding) := do
  let found ← archives.mapM fun archive => do
    let rows ← readCatalog (s.catalog.chunksOf archive.id)
    match s.reassemble archive.name .start rows with
    | .error finding => return [finding]
    | .ok actual =>
      if actual ≠ archive.digest then
        return [.archiveHashMismatch archive.name archive.digest actual]
      else return []
  return found.flatten

def findMislength (s : Store σ) : Except StoreError (List Finding) := do
  let totals ← readCatalog s.catalog.totals
  return (totals.filter fun total => total.recorded != total.summed).map fun total =>
    .archiveLengthMismatch total.name total.recorded total.summed

def audit (s : Store σ) : Except StoreError AuditReport := do
  let archives ← readCatalog s.catalog.completed
  let unfinished ← s.findUnfinished
  let uncovered ← s.findUncovered archives
  let orphans ← s.findOrphans
  let (damaged, blobs) ← s.findDamaged
  let mismatched ← s.findMismatched archives
  let mislength ← s.findMislength
  let findings := unfinished ++ uncovered ++ orphans ++ damaged ++ mismatched ++ mislength
  return ⟨findings, archives.length, blobs⟩

end Store

end DedupArchive
