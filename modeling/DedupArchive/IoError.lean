/-
  DedupArchive/IoError.lean
  =========================
  **Input and output failures.**

  A failure has a kind, which the library acts on (an interrupted read is tried
  again, a missing file may be an answer), and a text, which it only passes on.
  The failures that a file system reports have fixed texts.
-/

namespace DedupArchive

inductive IoKind where
  | other
  | interrupted
  | unexpectedEof
  | permissionDenied
  | wouldBlock
  | brokenPipe
  | notFound
  | timedOut
  | writeZero
  | invalidInput
  | invalidData
  | isADirectory
  | notADirectory
  | alreadyExists
  | invalidFilename
deriving DecidableEq, Repr

structure IoError where
  kind : IoKind
  message : String
deriving DecidableEq, Repr

namespace IoError

def noSuchFile : IoError := ⟨.notFound, "No such file or directory (os error 2)"⟩

def fileExists : IoError := ⟨.alreadyExists, "File exists (os error 17)"⟩

def notADirectory : IoError := ⟨.notADirectory, "Not a directory (os error 20)"⟩

def isADirectory : IoError := ⟨.isADirectory, "Is a directory (os error 21)"⟩

def invalidArgument : IoError := ⟨.invalidInput, "Invalid argument (os error 22)"⟩

def nameTooLong : IoError := ⟨.invalidFilename, "File name too long (os error 36)"⟩

def nulInName : IoError := ⟨.invalidInput, "file name contained an unexpected NUL byte"⟩

def notText : IoError := ⟨.invalidData, "stream did not contain valid UTF-8"⟩

def wroteNothing : IoError := ⟨.writeZero, "failed to write whole buffer"⟩

end IoError

end DedupArchive
