/-
  DedupArchive/Reading/ChunkStream.lean
  =====================================
  **The chunks of a reader that is polled.**

  A chunk stream gives the same chunks as a chunk reader.  When its reader is
  not ready it says so and keeps its place.
-/
import DedupArchive.Reading.ChunkReader
import DedupArchive.Reading.Script

namespace DedupArchive

structure ChunkStream where
  source : Script
  chunker : Chunker
  ready : List Chunk
  finished : Bool

namespace ChunkStream

def start (p : Params) (source : Script) : ChunkStream := ⟨source, .start p, [], false⟩

/-- Ask for the next chunk or failure; `none` when there is nothing more. -/
def poll (s : ChunkStream) : Poll (Option (Except ChunkError Chunk)) × ChunkStream :=
  match s.ready with
  | chunk :: ready => (.ready (some (.ok chunk)), { s with ready })
  | [] =>
    if s.finished then (.ready none, s)
    else
      match _h : (s.source.poll bufferSize).1 with
      | .pending => (.pending, { s with source := (s.source.poll bufferSize).2 })
      | .ready (.ok []) =>
        let (last, chunker) := s.chunker.finish
        (.ready (last.map .ok),
          { s with source := (s.source.poll bufferSize).2, chunker, finished := true })
      | .ready (.ok (b :: data)) =>
        let (ready, chunker) := s.chunker.push (b :: data)
        poll ⟨(s.source.poll bufferSize).2, chunker, ready, false⟩
      | .ready (.error e) =>
        if e.kind = .interrupted then poll { s with source := (s.source.poll bufferSize).2 }
        else
          (.ready (some (.error (.io e))),
            { s with
              source := (s.source.poll bufferSize).2
              chunker := s.chunker.reset
              finished := true })
termination_by s.source.remaining
decreasing_by
  · have := Script.remaining_poll s.source bufferSize
    simp only [_h, Script.pollWeight, ReadOutcome.weight, List.length_cons] at this
    show Script.remaining _ < _
    omega
  · have := Script.remaining_poll s.source bufferSize
    simp only [_h, Script.pollWeight, ReadOutcome.weight] at this
    show Script.remaining _ < _
    omega

end ChunkStream

end DedupArchive
