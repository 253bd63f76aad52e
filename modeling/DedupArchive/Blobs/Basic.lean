/-
  DedupArchive/Blobs/Basic.lean
  =============================
  **Blob stores.**

  A blob is the bytes of one chunk under their digest.  A blob store holds each
  blob once.  It takes the caller's word for the digest, and it does not know
  which blobs are in use.
-/
import DedupArchive.Digest.Hex
import DedupArchive.IoError

namespace DedupArchive

inductive BlobError where
  | notFound (digest : Digest)
  | io (cause : IoError)
deriving DecidableEq

def BlobError.message : BlobError → String
  | .notFound digest => s!"blob {digest} not found"
  | .io cause => s!"blob store io error: {cause.message}"

/-- Storage of bytes under their digests.  `put` stores a blob unless one with the
    digest is there, and says whether it did; `digests` are in ascending order. -/
class BlobStore (σ : Type) where
  put : σ → Digest → Bytes → Except BlobError Bool × σ
  get : σ → Digest → Except BlobError Bytes
  contains : σ → Digest → Except BlobError Bool
  erase : σ → Digest → Except BlobError Unit × σ
  digests : σ → Except BlobError (List Digest)

end DedupArchive
