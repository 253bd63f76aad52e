/-
  DedupArchive/Sink.lean
  ======================
  **Sinks: where bytes are written to.**

  A sink takes a write whole, in part, or not at all.  What it refuses is fixed
  beforehand: how much it takes at a time, how much it takes in all, whether
  every other write is interrupted, whether it can be flushed.  `Sink.unlimited`
  takes everything.
-/
import DedupArchive.Bytes
import DedupArchive.IoError

namespace DedupArchive

/-- A sink and what it has taken, the last write first.  One write takes at most
    `maxWrite` bytes and all together `capacity`; a write to a full sink fails as
    `fullKind` says, and without it takes nothing.  With `interrupts` every other
    write is interrupted, from the first on. -/
structure Sink where
  writes : List Bytes
  size : Nat
  maxWrite : Option Nat
  capacity : Option Nat
  fullKind : Option IoKind
  interrupts : Bool
  interrupted : Bool
  flushFails : Bool

namespace Sink

def unlimited : Sink := ⟨[], 0, none, none, none, false, false, false⟩

def contents (s : Sink) : Bytes := s.writes.reverse.flatten

/-- How many of so many bytes one write takes. -/
def room (s : Sink) (n : Nat) : Nat :=
  min (min n (s.maxWrite.getD n)) (s.capacity.elim n (· - s.size))

def isFull (s : Sink) : Bool := s.capacity.any (· ≤ s.size)

def write (s : Sink) (data : Bytes) : Except IoError Nat × Sink :=
  if s.interrupts && !s.interrupted then
    (.error ⟨.interrupted, "interrupted"⟩, { s with interrupted := true })
  else
    let s := { s with interrupted := false }
    if s.isFull then
      match s.fullKind with
      | some kind => (.error ⟨kind, "sink full"⟩, s)
      | none => (.ok 0, s)
    else
      let n := s.room data.length
      (.ok n, { s with writes := data.take n :: s.writes, size := s.size + n })

/-- Write all of the data: go on after partial and interrupted writes, and give
    up when a write fails or takes nothing.  A write that follows an interrupted
    one is not interrupted again, so `patience` of two writes a byte suffices. -/
def writeAllWithin (patience : Nat) (s : Sink) (data : Bytes) : Except IoError Unit × Sink :=
  match patience, data with
  | _, [] => (.ok (), s)
  | 0, _ => (.error .wroteNothing, s)
  | patience + 1, data =>
    match s.write data with
    | (.ok 0, s) => (.error .wroteNothing, s)
    | (.ok n, s) => writeAllWithin patience s (data.drop n)
    | (.error e, s) =>
      if e.kind = .interrupted then writeAllWithin patience s data else (.error e, s)

def writeAll (s : Sink) (data : Bytes) : Except IoError Unit × Sink :=
  writeAllWithin (2 * data.length) s data

def flush (s : Sink) : Except IoError Unit :=
  if s.flushFails then .error ⟨.other, "flush failed"⟩ else .ok ()

end Sink

end DedupArchive
