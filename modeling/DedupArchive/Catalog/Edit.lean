/-
  DedupArchive/Catalog/Edit.lean
  ==============================
  **Editing rows by hand.**

  Rows can be added, changed and removed cell by cell.  Such an edit keeps the
  rules of the tables except one: it may leave chunks of archives that do not
  exist.  An edit of several rows goes row by row and either changes all of them
  or none.
-/
import DedupArchive.Catalog.Tables

namespace DedupArchive

inductive ArchiveColumn where
  | id
  | name
  | length
  | digest
deriving DecidableEq, Repr

inductive ChunkColumn where
  | archive
  | digest
  | offset
  | length
deriving DecidableEq, Repr

def ArchiveColumn.affinity : ArchiveColumn → Affinity
  | .id | .length => .integer
  | .name => .text
  | .digest => .blob

def ChunkColumn.affinity : ChunkColumn → Affinity
  | .archive | .offset | .length => .integer
  | .digest => .blob

def ArchiveRow.cell (r : ArchiveRow) : ArchiveColumn → Cell
  | .id => .integer r.id
  | .name => r.name
  | .length => r.length
  | .digest => r.digest

def ChunkRow.cell (r : ChunkRow) : ChunkColumn → Cell
  | .archive => r.archive
  | .digest => r.digest
  | .offset => r.offset
  | .length => r.length

def ArchiveRow.set (r : ArchiveRow) (column : ArchiveColumn) (value : Cell) :
    Except CatalogError ArchiveRow :=
  let value := column.affinity.apply value
  match column with
  | .id =>
    match value with
    | .integer id => .ok { r with id }
    | _ => .error .idNotInteger
  | .name => .ok { r with name := value }
  | .length => .ok { r with length := value }
  | .digest => .ok { r with digest := value }

def ChunkRow.set (r : ChunkRow) (column : ChunkColumn) (value : Cell) : ChunkRow :=
  let value := column.affinity.apply value
  match column with
  | .archive => { r with archive := value }
  | .digest => { r with digest := value }
  | .offset => { r with offset := value }
  | .length => { r with length := value }

def ArchiveRow.holds (r : ArchiveRow) (wanted : List (ArchiveColumn × Cell)) : Bool :=
  wanted.all fun (column, value) => (r.cell column).equals (column.affinity.apply value)

def ChunkRow.holds (r : ChunkRow) (wanted : List (ChunkColumn × Cell)) : Bool :=
  wanted.all fun (column, value) => (r.cell column).equals (column.affinity.apply value)

/-- Change the chosen rows one after the other and count them.  `done` holds the
    rows already passed, the last one first. -/
def updateRows {α : Type} (chosen : α → Bool) (change : α → List α → Except CatalogError α)
    (done : List α) : List α → Except CatalogError (Nat × List α)
  | [] => .ok (0, done.reverse)
  | row :: rest =>
    if chosen row then do
      let row ← change row (done ++ rest)
      let (count, rows) ← updateRows chosen change (row :: done) rest
      return (count + 1, rows)
    else updateRows chosen change (row :: done) rest

namespace Catalog

/-- Add an archive row of the given cells; without an id it gets the next one. -/
def editInsertArchive (c : Catalog) (cells : List (ArchiveColumn × Cell)) :
    Except CatalogError Catalog := do
  let cells := cells.filter fun (column, value) => column != .id || !value.isNull
  let blank : ArchiveRow := ⟨c.nextId, .null, .null, .null⟩
  let row ← cells.foldlM (fun row (column, value) => row.set column value) blank
  c.addArchive row

def editInsertChunk (c : Catalog) (cells : List (ChunkColumn × Cell)) :
    Except CatalogError Catalog :=
  let blank : ChunkRow := ⟨.null, .null, .null, .null⟩
  c.addChunk (cells.foldl (fun row (column, value) => row.set column value) blank)

def editUpdateArchives (c : Catalog) (wanted values : List (ArchiveColumn × Cell)) :
    Except CatalogError (Nat × Catalog) := do
  let change (row : ArchiveRow) (others : List ArchiveRow) : Except CatalogError ArchiveRow := do
    let row ← values.foldlM (fun row (column, value) => row.set column value) row
    row.check
    row.checkUnique others
    return row
  let byId := c.archives.mergeSort fun a b => a.id ≤ b.id
  let (count, archives) ← updateRows (·.holds wanted) change [] byId
  return (count, { c with archives })

def editUpdateChunks (c : Catalog) (wanted values : List (ChunkColumn × Cell)) :
    Except CatalogError (Nat × Catalog) := do
  let change (row : ChunkRow) (others : List ChunkRow) : Except CatalogError ChunkRow := do
    let row := values.foldl (fun row (column, value) => row.set column value) row
    row.check
    row.checkUnique others
    return row
  let (count, chunks) ← updateRows (·.holds wanted) change [] c.chunks
  return (count, { c with chunks })

def editDeleteArchives (c : Catalog) (wanted : List (ArchiveColumn × Cell)) : Nat × Catalog :=
  (c.archives.countP (·.holds wanted), { c with archives := c.archives.filter (!·.holds wanted) })

def editDeleteChunks (c : Catalog) (wanted : List (ChunkColumn × Cell)) : Nat × Catalog :=
  (c.chunks.countP (·.holds wanted), { c with chunks := c.chunks.filter (!·.holds wanted) })

end Catalog

end DedupArchive
