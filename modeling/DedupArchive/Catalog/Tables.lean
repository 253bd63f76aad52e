/-
  DedupArchive/Catalog/Tables.lean
  ================================
  **The two tables of the catalog and their rules.**

  An archive row names a member; a chunk row says which blob stands where in a
  member.  A row is added only if it keeps the rules, which are tried in a fixed
  order: cells that must hold something, then value rules, then unique keys.
  Rows are kept newest first.  Their order shows in an answer only where digest
  cells of different class are equal, which no digest is.
-/
import DedupArchive.Catalog.Error

namespace DedupArchive

/-- A row of the archive table; an unfinished archive has no length or digest. -/
structure ArchiveRow where
  id : Int
  name : Cell
  length : Cell
  digest : Cell
deriving DecidableEq, Repr

structure ChunkRow where
  archive : Cell
  digest : Cell
  offset : Cell
  length : Cell
deriving DecidableEq, Repr

/-- The catalog: which members there are, and of which chunks they consist. -/
structure Catalog where
  archives : List ArchiveRow
  chunks : List ChunkRow
deriving DecidableEq, Repr

/-- Whether a value rule of the form "at least zero" holds; nothing keeps every rule. -/
def Cell.atLeastZero (c : Cell) : Bool := c.isNull || (Cell.integer 0).le c

def Cell.aboveZero (c : Cell) : Bool := c.isNull || !c.le (.integer 0)

def ArchiveRow.check (r : ArchiveRow) : Except CatalogError Unit :=
  if r.name.isNull then .error (.notNull "archive.name")
  else if !r.length.atLeastZero then .error (.check .archiveLength)
  else .ok ()

def ArchiveRow.checkUnique (r : ArchiveRow) (others : List ArchiveRow) : Except CatalogError Unit :=
  if others.any (·.id == r.id) then .error (.duplicate .archiveId)
  else if others.any (·.name.equals r.name) then .error (.duplicate .archiveName)
  else .ok ()

def ChunkRow.check (r : ChunkRow) : Except CatalogError Unit :=
  if r.archive.isNull then .error (.notNull "chunk.archive_id")
  else if r.digest.isNull then .error (.notNull "chunk.digest")
  else if r.offset.isNull then .error (.notNull "chunk.offset")
  else if r.length.isNull then .error (.notNull "chunk.length")
  else if !r.offset.atLeastZero then .error (.check .chunkOffset)
  else if !r.length.aboveZero then .error (.check .chunkLength)
  else .ok ()

def ChunkRow.checkUnique (r : ChunkRow) (others : List ChunkRow) : Except CatalogError Unit :=
  if others.any (fun o => o.archive.equals r.archive && o.offset.equals r.offset) then
    .error (.duplicate .chunkPlace)
  else .ok ()

namespace Catalog

def empty : Catalog := ⟨[], []⟩

/-- The id that a new archive row gets: one more than the largest. -/
def nextId (c : Catalog) : Int :=
  match (c.archives.map (·.id)).max? with
  | none => 1
  | some largest => largest + 1

def addArchive (c : Catalog) (r : ArchiveRow) : Except CatalogError Catalog := do
  r.check
  r.checkUnique c.archives
  return { c with archives := r :: c.archives }

/-- Add a chunk row, whether or not its archive exists. -/
def addChunk (c : Catalog) (r : ChunkRow) : Except CatalogError Catalog := do
  r.check
  r.checkUnique c.chunks
  return { c with chunks := r :: c.chunks }

end Catalog

end DedupArchive
