/-
  DedupArchive/Store/Error.lean
  =============================
  **Why a store refuses or fails.**
-/
import DedupArchive.Blobs.Basic
import DedupArchive.Catalog.Error
import DedupArchive.Chunking.Error
import DedupArchive.Text.Quoted

namespace DedupArchive

/-! ### The store descriptor -/

def storeKind : String := "chunkar"

def storeVersion : Nat := 1

def catalogFile : String := "catalog.db"

inductive Refusal where
  | notADirectory
  | alreadyAStore
  | missing (file : String)
  | otherKind (kind : String)
  | otherVersion (version : String)
  | unreadableParams
  | invalidParams (cause : ChunkError)
  | other (reason : String)
deriving DecidableEq, Repr

def Refusal.message : Refusal → String
  | .notADirectory => "not a directory"
  | .alreadyAStore => "already contains a store"
  | .missing file => s!"missing {file}"
  | .otherKind kind => s!"store kind is {Text.quoted kind}"
  | .otherVersion version => s!"uses version {version} but only version {storeVersion} is supported"
  | .unreadableParams => "unreadable chunking parameters"
  | .invalidParams cause => s!"invalid chunking parameters: {cause.message}"
  | .other reason => reason

/-! ### Stored data -/

inductive IntegrityError where
  | chunkLength (name : String) (digest : Digest) (expected actual : Nat)
  | archiveDigest (name : String) (expected actual : Digest)
  | archiveLength (name : String) (expected actual : Nat)
  | discontinuity (name : String) (expected offset : Nat)
deriving DecidableEq, Repr

def IntegrityError.message : IntegrityError → String
  | .chunkLength name digest expected actual =>
    s!"chunk {digest} of {name} is {actual} bytes, expected {expected}"
  | .archiveDigest name expected actual =>
    s!"{name} hash mismatch: expected {expected}, got {actual}"
  | .archiveLength name expected actual =>
    s!"{name} length mismatch: expected {expected}, got {actual}"
  | .discontinuity name expected offset =>
    s!"{name} chunk at offset {offset} does not follow offset {expected}"

/-! ### The store -/

inductive StoreError where
  | notAStore (path : String) (reason : Refusal)
  | alreadyExists (name : String)
  | notFound (name : String)
  | integrity (cause : IntegrityError)
  | chunking (cause : ChunkError)
  | blob (cause : BlobError)
  | catalog (cause : CatalogError)
  | io (cause : IoError)
deriving DecidableEq

def StoreError.message : StoreError → String
  | .notAStore path reason => s!"{path} is not a {storeKind} store: {reason.message}"
  | .alreadyExists name => s!"archive {name} already exists"
  | .notFound name => s!"member {name} not found in archive"
  | .integrity cause => s!"integrity error: {cause.message}"
  | .chunking cause => s!"chunker error: {cause.message}"
  | .blob cause => cause.message
  | .catalog cause => s!"metadata error: {cause.message}"
  | .io cause => s!"io error: {cause.message}"

end DedupArchive
