/-
  DedupArchive/Store/Descriptor.lean
  ==================================
  **How a directory says that it is a store.**

  Three small files under `format` tell the kind of the store, the version of
  its layout and its chunking parameters.  The file with the kind is written
  first and makes the directory a store.
-/
import DedupArchive.Files.Tree
import DedupArchive.Params.Json
import DedupArchive.Store.Error
import DedupArchive.Text.Blank

namespace DedupArchive.Descriptor

def folder (root : Path) : Path := root.join "format"

/-- Whether a directory carries a descriptor. -/
def isThere (t : FileTree) (root : Path) : Bool := t.reaches ((folder root).join "name")

/-- Write files into a directory, up to the first that fails. -/
def writeFiles (t : FileTree) (p : Path) :
    List (String × String) → Except StoreError Unit × FileTree
  | [] => (.ok (), t)
  | (name, text) :: rest =>
    match t.writeFile (p.join name) (Bytes.ofText text) with
    | .error e => (.error (.io e), t)
    | .ok t => writeFiles t p rest

def files (p : Params) : List (String × String) :=
  [("name", s!"{storeKind}\n"), ("version", s!"{storeVersion}\n"), ("chunking", p.toIndentedJson)]

def write (t : FileTree) (root : Path) (p : Params) : Except StoreError Unit × FileTree :=
  match t.makeDirectories (folder root) with
  | (.error e, t) => (.error (.io e), t)
  | (.ok (), t) => writeFiles t (folder root) (files p)

def readPart (t : FileTree) (root : Path) (name : String) : Except StoreError String :=
  match t.textAt ((folder root).join name) with
  | .ok text => .ok text
  | .error e =>
    .error (if e.kind = .notFound then .notAStore root.text (.missing s!"format/{name}") else .io e)

def read (t : FileTree) (root : Path) : Except StoreError Params := do
  let refuse {α : Type} (reason : Refusal) : Except StoreError α :=
    .error (.notAStore root.text reason)
  let kind ← readPart t root "name"
  if Text.trim kind ≠ storeKind then refuse (.otherKind (Text.trim kind))
  let version ← readPart t root "version"
  if Text.trim version ≠ toString storeVersion then refuse (.otherVersion (Text.trim version))
  let chunking ← readPart t root "chunking"
  match Params.ofJson? chunking with
  | none => refuse .unreadableParams
  | some p =>
    match p.validate with
    | .error e => refuse (.invalidParams (.invalidParams e))
    | .ok () => return p

end DedupArchive.Descriptor
