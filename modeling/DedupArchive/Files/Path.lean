/-
  DedupArchive/Files/Path.lean
  ============================
  **Paths.**

  A path is the list of the names between its slashes, just as it is written: a
  message shows it the way it was given.  An empty name and a dot stand for no
  step, two dots for a step up.
-/
import DedupArchive.IoError

namespace DedupArchive

/-- A path: the names between the slashes, from the top of the tree downwards. -/
abbrev Path := List String

namespace Path

def text (p : Path) : String := "/".intercalate p

def ofText (text : String) : Path := text.splitOn "/"

/-- A name below a path.  A slash at the end of the path is not doubled. -/
def join (p : Path) (name : String) : Path :=
  if p.getLast? = some "" then p.dropLast ++ [name] else p ++ [name]

def isIdle (name : String) : Bool := name = "" || name = "."

def step (place : Path) (name : String) : Path :=
  if isIdle name then place else if name = ".." then place.dropLast else place ++ [name]

/-- The place that a path leads to, if all on the way are directories. -/
def plain (p : Path) : Path := p.foldl step []

def isTooLong (name : String) : Bool := 255 < name.utf8ByteSize

/-- Why a path is refused as it is written, before it is followed: it holds a
    character that no name can hold, or has too many bytes. -/
def refusal? (p : Path) : Option IoError :=
  if p.any fun name => name.toList.contains '\x00' then some .nulInName
  else if 4095 < p.text.utf8ByteSize then some .nameTooLong
  else none

def trim (p : Path) : Path := (p.reverse.dropWhile (· = "")).reverse

end Path

end DedupArchive
