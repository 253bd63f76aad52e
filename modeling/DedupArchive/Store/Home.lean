/-
  DedupArchive/Store/Home.lean
  ============================
  **Stores that live in a directory.**

  A directory holds the descriptor, the blobs and the catalog's file.  A handle
  on it remembers the place and the chunking parameters; all else is read from
  the tree of files at every use and written back after it.  Only the catalog's
  file is held open.  A directory is refused before anything in it is touched,
  and the descriptor of a new store is written last: a directory half made is not
  a store, unless it is the descriptor that could be written only in part.
-/
import DedupArchive.Blobs.Directory
import DedupArchive.Store.Audit
import DedupArchive.Store.CatalogFile
import DedupArchive.Store.Descriptor

namespace DedupArchive

/-- A handle on a store directory. -/
structure Home where
  root : Path
  params : Params
  file : CatalogHandle

namespace Home

def catalogPath (root : Path) : Path := root.join catalogFile

def openParts (t : FileTree) (root : Path) : Except StoreError Unit × FileTree :=
  match BlobDirectory.prepare t root with
  | (.error e, t) => (.error (.blob e), t)
  | (.ok (), t) =>
    match CatalogFile.open t (catalogPath root) with
    | (.error e, t) => (.error (.catalog e), t)
    | (.ok _, t) => (.ok (), t)

def create (t : FileTree) (root : Path) (p : Params) : Except StoreError Home × FileTree :=
  match p.validate with
  | .error e => (.error (.chunking (.invalidParams e)), t)
  | .ok () =>
    if t.reaches root && !t.isDirectory root then (.error (.notAStore root.text .notADirectory), t)
    else if Descriptor.isThere t root then (.error (.notAStore root.text .alreadyAStore), t)
    else
      match t.makeDirectories root with
      | (.error e, t) => (.error (.io e), t)
      | (.ok (), t) =>
        match openParts t root with
        | (.error e, t) => (.error e, t)
        | (.ok (), t) =>
          match Descriptor.write t root p with
          | (.error e, t) => (.error e, t)
          | (.ok (), t) => (.ok ⟨root, p, ⟨catalogPath root, none⟩⟩, t)

/-- Open the store in a directory.  A lost catalog is never made anew: every
    blob would seem to be unused. -/
def «open» (t : FileTree) (root : Path) : Except StoreError Home × FileTree :=
  if !t.isDirectory root then (.error (.notAStore root.text .notADirectory), t)
  else
    match Descriptor.read t root with
    | .error e => (.error e, t)
    | .ok p =>
      if !t.isFile (catalogPath root) then (.error (.notAStore root.text (.missing catalogFile)), t)
      else
        match openParts t root with
        | (.error e, t) => (.error e, t)
        | (.ok (), t) => (.ok ⟨root, p, ⟨catalogPath root, none⟩⟩, t)

/-- Open the store in a directory, or make one there.  A store that is there
    keeps its own parameters. -/
def openOrCreate (t : FileTree) (root : Path) (p : Params) : Except StoreError Home × FileTree :=
  if Descriptor.isThere t root then Home.open t root else create t root p

def follow (h : Home) (before after : FileTree) : Home :=
  { h with file := h.file.follow before after }

def use {α : Type} (h : Home) (t : FileTree)
    (action : Store BlobDirectory → Except StoreError α × Store BlobDirectory) :
    Except StoreError α × FileTree :=
  match h.file.use t (fun rows => ⟨rows, ⟨t, h.root⟩, h.params, some h.root⟩) action with
  | (result, none) => (result, t)
  | (result, some s) => (result, h.file.write s.blobs.tree s.catalog)

def save {ρ : Type} [Reader ρ] (h : Home) (t : FileTree) (name : String) (source : ρ) :
    Except StoreError SaveSummary × FileTree :=
  h.use t fun s => s.saveIf h.file.isWritable name source

/-- Remove a member and every blob that only it refers to. -/
def delete (h : Home) (t : FileTree) (name : String) : Except StoreError Unit × FileTree :=
  h.use t fun s => s.deleteIf h.file.isWritable name

end Home

end DedupArchive
