/-
  DedupArchive/Catalog/Query.lean
  ===============================
  **Questions to the catalog.**

  Every question names the rows that it reads, the order in which it reads them
  and the columns it reads of each.  It fails at the first cell that does not
  hold what its column is meant for.
-/
import DedupArchive.Catalog.Tables
import DedupArchive.Digest.Basic

namespace DedupArchive

structure ArchiveRecord where
  id : Int
  name : String
  length : Nat
  digest : Digest
deriving DecidableEq

structure ChunkRecord where
  digest : Digest
  offset : Nat
  length : Nat
deriving DecidableEq

def maxWord : Nat := 18446744073709551615

/-- Where the byte after the chunk stands, at most the largest 64-bit number. -/
def ChunkRecord.last (r : ChunkRecord) : Nat := min (r.offset + r.length) maxWord

structure ChunkTotal where
  name : String
  recorded : Nat
  summed : Nat
deriving DecidableEq, Repr

/-! ### Reading cells -/

namespace Cell

def toInteger (index : Nat) (column : String) : Cell → Except CatalogError Int
  | .integer value => .ok value
  | other => .error (.wrongClass index column other.storage)

def toNatural (index : Nat) (column : String) (c : Cell) : Except CatalogError Nat := do
  let value ← c.toInteger index column
  if value < 0 then .error (.negative index) else .ok value.toNat

def toText (index : Nat) (column : String) : Cell → Except CatalogError String
  | .text value => .ok value
  | other => .error (.wrongClass index column other.storage)

def toDigest (index : Nat) (column : String) : Cell → Except CatalogError Digest
  | .blob value =>
    match Digest.ofBytes? value with
    | some digest => .ok digest
    | none => .error (.wrongSize index value.length)
  | other => .error (.wrongClass index column other.storage)

end Cell

/-! ### Runs -/

def dropRepeats {α : Type} (same : α → α → Bool) (kept : α) : List α → List α
  | [] => []
  | x :: rest =>
    if same kept x then dropRepeats same kept rest else x :: dropRepeats same x rest

/-- Keep the first of each run. -/
def firstOfRuns {α : Type} (same : α → α → Bool) : List α → List α
  | [] => []
  | x :: rest => x :: dropRepeats same x rest

def Digest.cell (d : Digest) : Cell := .blob d.bytes

/-! ### Rows -/

namespace ArchiveRow

def isComplete (r : ArchiveRow) : Bool := !r.length.isNull && !r.digest.isNull

def toRecord (r : ArchiveRow) : Except CatalogError ArchiveRecord := do
  let name ← r.name.toText 1 "name"
  let length ← r.length.toNatural 2 "length"
  let digest ← r.digest.toDigest 3 "digest"
  return ⟨r.id, name, length, digest⟩

def byName (rows : List ArchiveRow) : List ArchiveRow := rows.mergeSort fun a b => a.name.le b.name

end ArchiveRow

namespace ChunkRow

def toRecord (r : ChunkRow) : Except CatalogError ChunkRecord := do
  let digest ← r.digest.toDigest 0 "digest"
  let offset ← r.offset.toNatural 1 "offset"
  let length ← r.length.toNatural 2 "length"
  return ⟨digest, offset, length⟩

def byOffset (rows : List ChunkRow) : List ChunkRow :=
  rows.mergeSort fun a b => a.offset.le b.offset

def blobLE (a b : Cell × Cell) : Bool := if a.1.same b.1 then a.2.le b.2 else a.1.le b.1

def blobSame (a b : Cell × Cell) : Bool := a.1.same b.1 && a.2.same b.2

end ChunkRow

/-! ### Sums -/

/-- A sum of integers; or they exceed the integers, or something else was among them. -/
inductive LengthSum where
  | exact (total : Int)
  | tooLarge
  | approximate

def LengthSum.add (sum : LengthSum) (c : Cell) : LengthSum :=
  match sum, c with
  | sum, .null => sum
  | .exact total, .integer value =>
    if Cell.minInteger ≤ total + value ∧ total + value ≤ Cell.maxInteger then .exact (total + value)
    else .tooLarge
  | .tooLarge, .integer _ => .tooLarge
  | _, _ => .approximate

/-- The sum of some cells as the cell of an answer's column.  A sum over
    anything but integers is a fraction, whose value no answer shows. -/
def sumOf (cells : List Cell) : Except CatalogError Cell :=
  match cells.foldl LengthSum.add (.exact 0) with
  | .exact total => .ok (.integer total)
  | .tooLarge => .error .sumOverflow
  | .approximate => .ok (.real 0)

/-! ### Questions -/

namespace Catalog

def chunkRows (c : Catalog) (id : Int) : List ChunkRow :=
  c.chunks.filter fun r => r.archive.equals (.integer id)

def archive? (c : Catalog) (name : String) : Except CatalogError (Option ArchiveRecord) :=
  match c.archives.find? fun r => r.name.equals (.text name) && r.isComplete with
  | none => .ok none
  | some row => row.toRecord.map some

def archiveId? (c : Catalog) (name : String) : Option Int :=
  (c.archives.find? fun r => r.name.equals (.text name)).map (·.id)

def completed (c : Catalog) : Except CatalogError (List ArchiveRecord) :=
  (ArchiveRow.byName (c.archives.filter (·.isComplete))).mapM (·.toRecord)

def archiveNames (c : Catalog) : Except CatalogError (List String) :=
  (ArchiveRow.byName (c.archives.filter (·.isComplete))).mapM (·.name.toText 0 "name")

def unfinished (c : Catalog) : Except CatalogError (List String) :=
  (ArchiveRow.byName (c.archives.filter (!·.isComplete))).mapM (·.name.toText 0 "name")

/-- The chunks of an archive, by offset. -/
def chunksOf (c : Catalog) (id : Int) : Except CatalogError (List ChunkRecord) :=
  (ChunkRow.byOffset (c.chunkRows id)).mapM (·.toRecord)

/-- Every digest that a chunk refers to, with every length it has there, in order.
    Of pairs that are equal the oldest is read. -/
def referenced (c : Catalog) : Except CatalogError (List (Digest × Nat)) :=
  let pairs := (c.chunks.reverse.map fun r => (r.digest, r.length)).mergeSort ChunkRow.blobLE
  (firstOfRuns ChunkRow.blobSame pairs).mapM fun (digest, length) => do
    let digest ← digest.toDigest 0 "digest"
    let length ← length.toNatural 1 "length"
    return (digest, length)

def sumColumn : String := "COALESCE(SUM(c.length), 0)"

def sumOfChunks (c : Catalog) (id : Int) : Except CatalogError Cell :=
  sumOf ((ChunkRow.byOffset (c.chunkRows id)).map (·.length))

/-- Recorded and summed length of every archive that has a length, by name.
    All sums are taken before the first row is read. -/
def totals (c : Catalog) : Except CatalogError (List ChunkTotal) := do
  let rows := ArchiveRow.byName (c.archives.filter (!·.length.isNull))
  let sums ← rows.mapM fun row => (c.sumOfChunks row.id).map (row, ·)
  sums.mapM fun (row, sum) => do
    let name ← row.name.toText 0 "name"
    let recorded ← row.length.toNatural 1 "length"
    let summed ← sum.toNatural 2 sumColumn
    return ⟨name, recorded, summed⟩

def isReferenced (c : Catalog) (digest : Digest) : Bool :=
  c.chunks.any (·.digest.equals digest.cell)

/-- The digests that an archive's chunks refer to, in order.  Of digests that are
    equal the one at the lowest offset is read. -/
def archiveDigests (c : Catalog) (id : Int) : Except CatalogError (List Digest) :=
  let digests := ((ChunkRow.byOffset (c.chunkRows id)).map (·.digest)).mergeSort Cell.le
  (firstOfRuns Cell.same digests).mapM (·.toDigest 0 "digest")

def referencedElsewhere (c : Catalog) (digest : Digest) (id : Int) : Bool :=
  c.chunks.any fun r =>
    r.digest.equals digest.cell && !r.archive.isNull && !r.archive.equals (.integer id)

end Catalog

end DedupArchive
