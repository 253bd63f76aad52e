/-
  DedupArchive/Blobs/Faulty.lean
  ==============================
  **Blob stores some of whose calls fail.**

  A fault names a call, and a digest unless it holds for all.  The first fault
  that fits decides how the call fails; a call that no fault fits is passed on.
-/
import DedupArchive.Blobs.Basic

namespace DedupArchive

inductive BlobCall where
  | put
  | get
  | contains
  | erase
  | digests
deriving DecidableEq, Repr

/-- A call that fails, for one digest or, without one, for all. -/
structure Fault where
  call : BlobCall
  digest : Option Digest
  cause : IoError

/-- A blob store and its faults, oldest first. -/
structure FaultyBlobs (σ : Type) where
  blobs : σ
  faults : List Fault

namespace FaultyBlobs

variable {σ : Type} [BlobStore σ]

def fits (call : BlobCall) (digest : Option Digest) (f : Fault) : Bool :=
  f.call == call && (f.digest.isNone || f.digest == digest)

def fault? (s : FaultyBlobs σ) (call : BlobCall) (digest : Option Digest) : Option IoError :=
  (s.faults.find? (fits call digest)).map (·.cause)

instance : BlobStore (FaultyBlobs σ) where
  put s d data :=
    match s.fault? .put (some d) with
    | some e => (.error (.io e), s)
    | none =>
      let (result, blobs) := BlobStore.put s.blobs d data
      (result, { s with blobs })
  get s d :=
    match s.fault? .get (some d) with
    | some e => .error (.io e)
    | none => BlobStore.get s.blobs d
  contains s d :=
    match s.fault? .contains (some d) with
    | some e => .error (.io e)
    | none => BlobStore.contains s.blobs d
  erase s d :=
    match s.fault? .erase (some d) with
    | some e => (.error (.io e), s)
    | none =>
      let (result, blobs) := BlobStore.erase s.blobs d
      (result, { s with blobs })
  digests s :=
    match s.fault? .digests none with
    | some e => .error (.io e)
    | none => BlobStore.digests s.blobs

end FaultyBlobs

end DedupArchive
