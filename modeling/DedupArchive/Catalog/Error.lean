/-
  DedupArchive/Catalog/Error.lean
  ===============================
  **Why the catalog refuses a change or a question.**

  A change is refused when a row would break a rule of its table.  A question
  fails when a row that it reads holds something of the wrong class, which only
  an edit behind the library's back can cause.
-/
import DedupArchive.Catalog.Cell

namespace DedupArchive

inductive ValueRule where
  | archiveLength
  | chunkOffset
  | chunkLength
deriving DecidableEq, Repr

/-- What no two rows of a table may share; the place of a chunk is its archive and its
    offset. -/
inductive UniqueKey where
  | archiveId
  | archiveName
  | chunkPlace
deriving DecidableEq, Repr

/-- Why a change is refused or a question not answered: a rule of the tables is
    broken, a cell does not hold what a column of the answer is meant for, or the file
    holds no catalog. -/
inductive CatalogError where
  | check (rule : ValueRule)
  | notNull (column : String)
  | duplicate (key : UniqueKey)
  | foreignKey
  | idNotInteger
  | sumOverflow
  | wrongClass (index : Nat) (column : String) (found : StorageClass)
  | wrongSize (index : Nat) (size : Nat)
  | negative (index : Nat)
  | notACatalog
  | noTable (table : String)
  | fileRemoved
  | cannotOpen (path : String)
deriving DecidableEq, Repr

namespace ValueRule

def condition : ValueRule → String
  | .archiveLength => "length >= 0"
  | .chunkOffset => "offset >= 0"
  | .chunkLength => "length > 0"

end ValueRule

namespace UniqueKey

def columns : UniqueKey → String
  | .archiveId => "archive.id"
  | .archiveName => "archive.name"
  | .chunkPlace => "chunk.archive_id, chunk.offset"

end UniqueKey

namespace CatalogError

def isConstraint : CatalogError → Bool
  | .check _ | .notNull _ | .duplicate _ | .foreignKey => true
  | _ => false

def message : CatalogError → String
  | .check rule => s!"CHECK constraint failed: {rule.condition}"
  | .notNull column => s!"NOT NULL constraint failed: {column}"
  | .duplicate key => s!"UNIQUE constraint failed: {key.columns}"
  | .foreignKey => "FOREIGN KEY constraint failed"
  | .idNotInteger => "datatype mismatch"
  | .sumOverflow => "integer overflow"
  | .wrongClass index column found =>
    s!"Invalid column type {found.name} at index: {index}, name: {column}"
  | .wrongSize index size =>
    s!"Conversion error from type Blob at index: {index}, Cannot read 32 byte value out of {size} byte blob"
  | .negative index =>
    s!"Conversion error from type Integer at index: {index}, out of range integral type conversion attempted"
  | .notACatalog => "file is not a database"
  | .noTable table => s!"no such table: {table}"
  | .fileRemoved => "attempt to write a readonly database"
  | .cannotOpen path => s!"unable to open database file: {path}"

end CatalogError

end DedupArchive
