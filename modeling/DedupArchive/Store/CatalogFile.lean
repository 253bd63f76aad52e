/-
  DedupArchive/Store/CatalogFile.lean
  ===================================
  **Catalogs in files.**

  A file is opened either for a look at one table or as a catalog, whose tables
  are then made where they are missing.  A handle stays with the file it opened:
  removed from the tree, the file can still be read through the handle, but no
  longer changed.  A handle gives a store its catalog and puts the changed one
  back.
-/
import DedupArchive.Store.Basic

namespace DedupArchive

/-! ### Opening a file -/

namespace CatalogFile

/-- The catalog in a file that is open, for a question about one of its tables.
    A file of at most one byte is a catalog without tables: a file system that
    keeps no empty file holds an empty one so. -/
def rows (table : String) : Entry → Except CatalogError Catalog
  | .catalog rows => .ok rows
  | .file [] | .file [_] => .error (.noTable table)
  | .file (_ :: _ :: _) | .directory => .error .notACatalog

/-- How many bytes the path of a catalog may have, so that the names of the
    files beside it fit as well. -/
def longestPath : Nat := 504

/-- Whether the rest of a catalog's path can be looked for.  Steps up are taken
    as they are written, so a missing directory on the way does no harm, but a
    file in the place of a directory does, and too long a way. -/
def isInReach (t : FileTree) (place : Path) : List String → Bool
  | [] => true
  | name :: rest =>
    let next := Path.step place name
    let canLook := match t.find next with
      | .ok _ => true
      | .error e => e.kind = .notFound
    next.text.utf8ByteSize ≤ longestPath && canLook && isInReach t next rest

/-- Open the file of a catalog without looking into it; where there is none, an
    empty one is made. -/
def hold (t : FileTree) (p : Path) : Except CatalogError Entry × FileTree :=
  if !isInReach t [] p then (.error (.cannotOpen p.text), t)
  else
    match t.find p.plain with
    | .ok .directory => (.error (.cannotOpen p.text), t)
    | .ok e => (.ok e, t)
    | .error _ =>
      match t.putFile p.plain (.file []) with
      | .ok t => (.ok (.file []), t)
      | .error _ => (.error (.cannotOpen p.text), t)

def write (t : FileTree) (p : Path) (rows : Catalog) : FileTree := t.put p.plain (.catalog rows)

/-- Open the catalog in a file; tables that are missing are made. -/
def «open» (t : FileTree) (p : Path) : Except CatalogError Catalog × FileTree :=
  match hold t p with
  | (.error e, t) => (.error e, t)
  | (.ok e, t) =>
    match rows "archive" e with
    | .ok rows => (.ok rows, t)
    | .error (.noTable _) => (.ok .empty, write t p .empty)
    | .error e => (.error e, t)

end CatalogFile

/-! ### Handles -/

/-- A handle on the file of a catalog; if the file was removed, it keeps what was in
    it. -/
structure CatalogHandle where
  path : Path
  removed : Option Entry

namespace CatalogHandle

def isWritable (h : CatalogHandle) : Bool := h.removed.isNone

/-- The handle after something else changed the tree: if the file was removed,
    what was in it stays with the handle. -/
def follow (h : CatalogHandle) (before after : FileTree) : CatalogHandle :=
  match h.removed, before.find h.path.plain, after.find h.path.plain with
  | none, .ok e, .error _ => { h with removed := some e }
  | _, _, _ => h

def read (h : CatalogHandle) (t : FileTree) (table : String) : Except CatalogError Catalog :=
  match h.removed with
  | some e => CatalogFile.rows table e
  | none =>
    match t.find h.path.plain with
    | .ok e => CatalogFile.rows table e
    | .error _ => .error (.cannotOpen h.path.text)

def write (h : CatalogHandle) (t : FileTree) (rows : Catalog) : FileTree :=
  if h.isWritable then CatalogFile.write t h.path rows else t

/-- Use a store whose catalog is in the file.  The store as it is afterwards is
    given back, unless the catalog could not be read. -/
def use {σ α : Type} (h : CatalogHandle) (t : FileTree) (store : Catalog → Store σ)
    (action : Store σ → Except StoreError α × Store σ) :
    Except StoreError α × Option (Store σ) :=
  match h.read t "archive" with
  | .error e => (.error (.catalog e), none)
  | .ok rows => (action (store rows)).map id some

end CatalogHandle

/-! ### Changing a store -/

namespace Store

variable {σ : Type} [BlobStore σ]

/-- Store what a reader gives as a new member.  Where the catalog cannot be
    changed, nothing is read. -/
def saveIf {ρ : Type} [Reader ρ] (s : Store σ) (isWritable : Bool) (name : String) (source : ρ) :
    Except StoreError SaveSummary × Store σ :=
  if isWritable || (s.catalog.archiveId? name).isSome then s.save name source
  else (.error (.catalog .fileRemoved), s)

/-- Remove a member and every blob that only it refers to.  That the catalog
    cannot be changed shows only after the blobs are gone. -/
def deleteIf (s : Store σ) (isWritable : Bool) (name : String) : Except StoreError Unit × Store σ :=
  match s.delete name with
  | (.ok (), s) => (if isWritable then .ok () else .error (.catalog .fileRemoved), s)
  | (.error e, s) => (.error e, s)

end Store

end DedupArchive
