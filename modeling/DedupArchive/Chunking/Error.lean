/-
  DedupArchive/Chunking/Error.lean
  ================================
  **Why cutting a byte string into chunks can fail.**
-/
import DedupArchive.IoError
import DedupArchive.Params.Basic

namespace DedupArchive

inductive ChunkError where
  | io (cause : IoError)
  | windowTooShort (expected actual : Nat)
  | invalidParams (cause : ParamsError)
deriving DecidableEq, Repr

def ChunkError.message : ChunkError → String
  | .io cause => s!"io error: {cause.message}"
  | .windowTooShort expected actual => s!"window too short: {actual} bytes (need {expected})"
  | .invalidParams cause => s!"invalid config: {cause.message}"

end DedupArchive
