/-
  DedupArchive/Blobs/Memory.lean
  ==============================
  **Blobs in memory.**

  A finite map from digests to byte strings.  No operation fails, except that
  there is no blob under most digests.
-/
import Std.Data.ExtTreeMap
import DedupArchive.Blobs.Basic

namespace DedupArchive

structure MemoryBlobs where
  blobs : Std.ExtTreeMap Digest Bytes compare

namespace MemoryBlobs

def empty : MemoryBlobs := ⟨∅⟩

def size (m : MemoryBlobs) : Nat := m.blobs.size

def isEmpty (m : MemoryBlobs) : Bool := m.blobs.isEmpty

def get? (m : MemoryBlobs) (d : Digest) : Option Bytes := m.blobs[d]?

/-- Store a blob unless one with the digest is there. -/
def put (m : MemoryBlobs) (d : Digest) (data : Bytes) : Except BlobError Bool × MemoryBlobs :=
  match m.get? d with
  | some _ => (.ok false, m)
  | none => (.ok true, ⟨m.blobs.insert d data⟩)

def get (m : MemoryBlobs) (d : Digest) : Except BlobError Bytes :=
  match m.get? d with
  | some data => .ok data
  | none => .error (.notFound d)

instance : BlobStore MemoryBlobs where
  put := put
  get := get
  contains m d := .ok (m.get? d).isSome
  erase m d := (.ok (), ⟨m.blobs.erase d⟩)
  digests m := .ok m.blobs.keys

end MemoryBlobs

end DedupArchive
