/-
  DedupArchive/Catalog/Transaction.lean
  =====================================
  **Changes to the catalog.**

  A change either succeeds or leaves the rows as they are.  A transaction keeps
  the rows of its beginning beside those being changed, and ends with either.
  Lengths and offsets arrive as 64-bit words and are stored as signed numbers of
  64 bits; the rules of the tables refuse what would come out negative.
-/
import DedupArchive.Catalog.Query

namespace DedupArchive

/-- A 64-bit word as a signed number. -/
def signedCell (word : UInt64) : Cell := .integer word.toInt64.toInt

namespace Catalog

def insertArchive (c : Catalog) (name : String) : Except CatalogError (Int × Catalog) := do
  let id := c.nextId
  let c ← c.addArchive ⟨id, .text name, .null, .null⟩
  return (id, c)

def insertChunk (c : Catalog) (id : Int) (digest : Digest) (offset length : UInt64) :
    Except CatalogError Catalog := do
  let changed ← c.addChunk ⟨.integer id, digest.cell, signedCell offset, signedCell length⟩
  if c.archives.any (·.id == id) then return changed else .error .foreignKey

def finalize (c : Catalog) (id : Int) (length : UInt64) (digest : Digest) :
    Except CatalogError Catalog := do
  let archives ← c.archives.mapM fun row =>
    if row.id = id then do
      let row := { row with length := signedCell length, digest := digest.cell }
      row.check
      return row
    else return row
  return { c with archives }

def deleteArchive (c : Catalog) (id : Int) : Catalog where
  archives := c.archives.filter (·.id != id)
  chunks := c.chunks.filter fun r => !r.archive.equals (.integer id)

end Catalog

/-- Changes to a catalog that may still be taken back: the rows at the beginning, and
    as they are now. -/
structure Transaction where
  before : Catalog
  current : Catalog
deriving DecidableEq, Repr

namespace Transaction

def begin (c : Catalog) : Transaction := ⟨c, c⟩

def commit (t : Transaction) : Catalog := t.current

def rollback (t : Transaction) : Catalog := t.before

/-- Make a change; if it is refused, the rows stay as they are. -/
def change (t : Transaction) (step : Catalog → Except CatalogError Catalog) :
    Except CatalogError Unit × Transaction :=
  match step t.current with
  | .ok current => (.ok (), { t with current })
  | .error e => (.error e, t)

/-- Add an archive; if it is refused, the rows stay as they are. -/
def insertArchive (t : Transaction) (name : String) : Except CatalogError Int × Transaction :=
  match t.current.insertArchive name with
  | .ok (id, current) => (.ok id, { t with current })
  | .error e => (.error e, t)

def insertChunk (t : Transaction) (id : Int) (digest : Digest) (offset length : UInt64) :
    Except CatalogError Unit × Transaction :=
  t.change (·.insertChunk id digest offset length)

def finalize (t : Transaction) (id : Int) (length : UInt64) (digest : Digest) :
    Except CatalogError Unit × Transaction :=
  t.change (·.finalize id length digest)

def deleteArchive (t : Transaction) (id : Int) : Transaction :=
  { t with current := t.current.deleteArchive id }

end Transaction

end DedupArchive
