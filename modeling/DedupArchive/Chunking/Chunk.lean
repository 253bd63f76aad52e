/-
  DedupArchive/Chunking/Chunk.lean
  ================================
  **Chunks: pieces of a stream.**

  A chunk holds its bytes, where they start in the stream if that is known, and
  their digest if the cutter was asked for it.
-/
import DedupArchive.Digest.Hex

namespace DedupArchive

structure Chunk where
  data : Bytes
  offset : Option Nat
  hash : Option Digest
deriving DecidableEq

namespace Chunk

def length (c : Chunk) : Nat := c.data.length

def isEmpty (c : Chunk) : Bool := c.data.isEmpty

/-- The recorded digest, or the digest of the bytes if none is recorded. -/
def digest (c : Chunk) : Digest := c.hash.getD (Digest.of c.data)

/-- Whether a recorded digest is the digest of the bytes. -/
def verify (c : Chunk) : Bool := c.hash.all (· == Digest.of c.data)

/-- Where the chunk starts; zero if that is not known. -/
def first (c : Chunk) : Nat := c.offset.getD 0

def last (c : Chunk) : Nat := c.first + c.length

def describe (c : Chunk) : String :=
  let place := if c.offset.isSome then s!"{c.first}..{c.last}" else s!"{c.length} bytes"
  match c.hash with
  | none => place
  | some hash => s!"{place} {hash}"

end Chunk

end DedupArchive
