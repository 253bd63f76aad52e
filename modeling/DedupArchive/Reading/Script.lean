/-
  DedupArchive/Reading/Script.lean
  ================================
  **Scripted readers.**

  A script lists what a reader does, in order: give bytes, at most so many at a
  time, fail once, or, where the reader may be polled, be not ready once.  After
  the script the reader is at its end.
-/
import DedupArchive.Reading.Reader

namespace DedupArchive

/-- One step of a scripted reader: give these bytes, at most `limit` at a time; fail
    once; or be not ready once. -/
inductive ReadStep where
  | data (bytes : Bytes) (limit : Option Nat)
  | failure (error : IoError)
  | pending
deriving DecidableEq, Repr

abbrev Script := List ReadStep

inductive Poll (α : Type) where
  | pending
  | ready (value : α)
deriving DecidableEq, Repr

namespace Script

/-- Give at most `n` bytes of a step; what is left of it stays in front. -/
def give (bytes : Bytes) (limit : Option Nat) (rest : Script) (n : Nat) : Bytes × Script :=
  let size := match limit with
    | none => n
    | some limit => min n limit
  match bytes.drop size with
  | [] => (bytes.take size, rest)
  | left => (bytes.take size, .data left limit :: rest)

def poll : Script → Nat → Poll (Except IoError Bytes) × Script
  | [], _ => (.ready (.ok []), [])
  | .pending :: rest, _ => (.pending, rest)
  | .failure e :: rest, _ => (.ready (.error e), rest)
  | .data bytes limit :: rest, n =>
    let (data, rest) := give bytes limit rest n
    (.ready (.ok data), rest)

def read : Script → Nat → Except IoError Bytes × Script
  | [], _ => (.ok [], [])
  | .pending :: rest, n => read rest n
  | .failure e :: rest, _ => (.error e, rest)
  | .data bytes limit :: rest, n =>
    let (data, rest) := give bytes limit rest n
    (.ok data, rest)

def remaining : Script → Nat
  | [] => 0
  | .data bytes _ :: rest => bytes.length + 1 + remaining rest
  | .failure _ :: rest => 1 + remaining rest
  | .pending :: rest => 1 + remaining rest

theorem remaining_give (bytes : Bytes) (limit : Option Nat) (rest : Script) (n : Nat) :
    remaining (give bytes limit rest n).2 + (give bytes limit rest n).1.length
      ≤ bytes.length + 1 + remaining rest := by
  unfold give
  dsimp only
  generalize (match limit with | none => n | some limit => min n limit) = size
  have hl : (bytes.take size).length + (bytes.drop size).length = bytes.length := by
    rw [← List.length_append, List.take_append_drop]
  split
  · simp only; omega
  · simp only [remaining]; omega

theorem remaining_read (s : Script) (n : Nat) :
    remaining (read s n).2 + ReadOutcome.weight (read s n).1 ≤ remaining s := by
  fun_induction read s n with
  | case1 => simp [remaining, ReadOutcome.weight]
  | case2 n rest ih => simp only [remaining]; omega
  | case3 => simp only [remaining, ReadOutcome.weight]; omega
  | case4 bytes limit rest n data rest' h =>
    have := remaining_give bytes limit rest n
    simpa [h, remaining, ReadOutcome.weight] using this

instance : Reader Script where
  read := read
  remaining := remaining
  remaining_read := remaining_read

def pollWeight : Poll (Except IoError Bytes) → Nat
  | .pending => 1
  | .ready outcome => ReadOutcome.weight outcome

theorem remaining_poll (s : Script) (n : Nat) :
    remaining (poll s n).2 + pollWeight (poll s n).1 ≤ remaining s := by
  match s with
  | [] => simp [poll, remaining, pollWeight, ReadOutcome.weight]
  | .pending :: rest => simp only [poll, remaining, pollWeight]; omega
  | .failure _ :: rest => simp only [poll, remaining, pollWeight, ReadOutcome.weight]; omega
  | .data bytes limit :: rest =>
    simpa [poll, remaining, pollWeight, ReadOutcome.weight] using remaining_give bytes limit rest n

end Script

end DedupArchive
