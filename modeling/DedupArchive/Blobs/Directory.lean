/-
  DedupArchive/Blobs/Directory.lean
  =================================
  **Blobs in a directory, one file each.**

  A blob is the file `objects/<digest>` below the store's root.  New bytes are
  staged in a file of their own under `tmp` and moved into place in one step, so
  a blob is either absent or complete, and nothing stays in `tmp`.  Names that
  are not the written form of a digest are not blobs and are left alone.
-/
import DedupArchive.Blobs.Basic
import DedupArchive.Files.Tree

namespace DedupArchive

structure BlobDirectory where
  tree : FileTree
  root : Path

namespace BlobDirectory

def objects (root : Path) : Path := root.join "objects"

def staging (root : Path) : Path := root.join "tmp"

def objectPath (root : Path) (d : Digest) : Path := (objects root).join d.toHex

/-- Make the directories that blobs need, where they are missing.  The second
    may fail after the first was made. -/
def prepare (t : FileTree) (root : Path) : Except BlobError Unit × FileTree :=
  match t.makeDirectories (objects root) with
  | (.error e, t) => (.error (.io e), t)
  | (.ok (), t) =>
    match t.makeDirectories (staging root) with
    | (.error e, t) => (.error (.io e), t)
    | (.ok (), t) => (.ok (), t)

/-- Store a blob unless one with the digest is there. -/
def put (s : BlobDirectory) (d : Digest) (data : Bytes) : Except BlobError Bool × BlobDirectory :=
  let p := objectPath s.root d
  match s.tree.contains p with
  | .error e => (.error (.io e), s)
  | .ok true => (.ok false, s)
  | .ok false =>
    match s.tree.requireDirectory (staging s.root) with
    | .error e => (.error (.io e), s)
    | .ok () =>
      match s.tree.writeFile p data with
      | .error e => (.error (.io e), s)
      | .ok tree => (.ok true, { s with tree })

def get (s : BlobDirectory) (d : Digest) : Except BlobError Bytes :=
  match s.tree.bytesAt (objectPath s.root d) with
  | .ok data => .ok data
  | .error e => .error (if e.kind = .notFound then .notFound d else .io e)

def contains (s : BlobDirectory) (d : Digest) : Except BlobError Bool :=
  match s.tree.contains (objectPath s.root d) with
  | .ok found => .ok found
  | .error e => .error (.io e)

def erase (s : BlobDirectory) (d : Digest) : Except BlobError Unit × BlobDirectory :=
  match s.tree.removeFile (objectPath s.root d) with
  | .ok tree => (.ok (), { s with tree })
  | .error e => (if e.kind = .notFound then .ok () else .error (.io e), s)

def digests (s : BlobDirectory) : Except BlobError (List Digest) :=
  match s.tree.names (objects s.root) with
  | .error e => .error (.io e)
  | .ok names => .ok ((names.filterMap Digest.ofHex?).mergeSort fun d e => (compare d e).isLE)

instance : BlobStore BlobDirectory where
  put := put
  get := get
  contains := contains
  erase := erase
  digests := digests

end BlobDirectory

end DedupArchive
