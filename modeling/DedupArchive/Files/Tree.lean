/-
  DedupArchive/Files/Tree.lean
  ============================
  **A tree of files.**

  A tree says for every place what stands there: a directory, a file of bytes, or
  a file that holds a catalog.  A path is followed step by step and only through
  directories, so every operation meets the first name that is missing or is no
  directory and fails the way that name asks for.  An operation that fails leaves
  the tree as it is, but for directories made above one that cannot be made.
-/
import Std.Data.ExtTreeMap
import DedupArchive.Catalog.Tables
import DedupArchive.Files.Path

namespace DedupArchive

inductive Entry where
  | directory
  | file (data : Bytes)
  | catalog (rows : Catalog)
deriving DecidableEq, Repr

/-- A tree of files; its top is a directory. -/
structure FileTree where
  entries : Std.ExtTreeMap Path Entry compare

namespace FileTree

def ofDirectory (name : String) : FileTree :=
  ⟨(∅ : Std.ExtTreeMap Path Entry compare).insert [name] .directory⟩

def entry? (t : FileTree) (place : Path) : Option Entry :=
  if place = [] then some .directory else t.entries[place]?

def put (t : FileTree) (place : Path) (e : Entry) : FileTree := ⟨t.entries.insert place e⟩

/-! ### Looking -/

/-- Follow the rest of a path from a place already reached. -/
def walk (t : FileTree) (place : Path) : List String → Except IoError (Path × Entry)
  | [] =>
    match t.entry? place with
    | none => .error .noSuchFile
    | some e => .ok (place, e)
  | name :: rest =>
    match t.entry? place with
    | none => .error .noSuchFile
    | some .directory =>
      if Path.isTooLong name then .error .nameTooLong else t.walk (Path.step place name) rest
    | some _ => .error .notADirectory

/-- The place that a path leads to and what stands there, or why it cannot be
    reached. -/
def locate (t : FileTree) (p : Path) : Except IoError (Path × Entry) :=
  match p.refusal? with
  | some e => .error e
  | none => t.walk [] p

def find (t : FileTree) (p : Path) : Except IoError Entry :=
  match t.locate p with
  | .error e => .error e
  | .ok (_, e) => .ok e

def reaches (t : FileTree) (p : Path) : Bool := (t.find p).toBool

def isDirectory (t : FileTree) (p : Path) : Bool :=
  match t.find p with
  | .ok .directory => true
  | _ => false

def isFile (t : FileTree) (p : Path) : Bool :=
  match t.find p with
  | .ok .directory | .error _ => false
  | .ok _ => true

/-- Whether something stands at a path; a missing component is an answer, a
    component that is no directory a failure. -/
def contains (t : FileTree) (p : Path) : Except IoError Bool :=
  match t.find p with
  | .ok _ => .ok true
  | .error e => if e.kind = .notFound then .ok false else .error e

/-- The bytes of a file.  What a catalog is written as is nobody's concern, so
    its file reads as empty. -/
def bytesAt (t : FileTree) (p : Path) : Except IoError Bytes :=
  match t.find p with
  | .error e => .error e
  | .ok .directory => .error .isADirectory
  | .ok (.file data) => .ok data
  | .ok (.catalog _) => .ok []

def textAt (t : FileTree) (p : Path) : Except IoError String :=
  match t.bytesAt p with
  | .error e => .error e
  | .ok data =>
    match Bytes.toText? data with
    | some text => .ok text
    | none => .error .notText

/-- Everything below a place, with the names that lead there, in the order of
    the names; a directory comes before what is in it. -/
def belowPlace (t : FileTree) (place : Path) : List (Path × Entry) :=
  t.entries.toList.filterMap fun (q, e) =>
    if place.isPrefixOf q && place.length < q.length then some (q.drop place.length, e) else none

def below (t : FileTree) (p : Path) : Except IoError (List (Path × Entry)) :=
  match t.locate p with
  | .error e => .error e
  | .ok (place, .directory) => .ok (t.belowPlace place)
  | .ok _ => .error .notADirectory

def names (t : FileTree) (p : Path) : Except IoError (List String) :=
  match t.below p with
  | .error e => .error e
  | .ok entries =>
    .ok (entries.filterMap fun (q, _) =>
      match q with
      | [name] => some name
      | _ => none)

/-! ### Changing -/

/-- Fails unless a directory stands at a path. -/
def requireDirectory (t : FileTree) (p : Path) : Except IoError Unit :=
  match t.find p with
  | .error e => .error e
  | .ok .directory => .ok ()
  | .ok _ => .error .notADirectory

/-- Make the directories that the rest of a path names from a directory already
    reached, where they are missing.  A file met on the way stands where a
    directory is needed; only at the end of the path, or once a directory was
    made, it stands where one is to be made.  A dot at the end makes nothing, so
    what is before it must be there. -/
def makeBelow (t : FileTree) (place : Path) (made : Bool) :
    List String → Except IoError Unit × FileTree
  | [] => (.ok (), t)
  | name :: rest =>
    let next := Path.step place name
    match t.entry? next with
    | some .directory => t.makeBelow next made rest
    | some _ =>
      let isToBeMade := rest = [] || (made && !rest.all Path.isIdle)
      (.error (if isToBeMade then .fileExists else .notADirectory), t)
    | none =>
      if Path.isTooLong name then (.error .nameTooLong, t)
      else if rest ≠ [] && rest.all Path.isIdle then (.error .noSuchFile, t)
      else (t.put next .directory).makeBelow next true rest

def makeDirectories (t : FileTree) (p : Path) : Except IoError Unit × FileTree :=
  match p.refusal? with
  | some e => (.error e, t)
  | none => t.makeBelow [] false p.trim

/-- Put a file at a path in place of the file there, if there is one.  A slash
    at the end asks for a directory. -/
def putFile (t : FileTree) (p : Path) (e : Entry) : Except IoError FileTree :=
  match p.refusal? with
  | some e => .error e
  | none =>
    match t.walk [] p.trim.dropLast with
    | .error e => .error e
    | .ok (above, .directory) =>
      let name := p.trim.getLastD ""
      let place := Path.step above name
      if p.getLastD "" = "" || t.entry? place = some .directory then .error .isADirectory
      else if Path.isTooLong name then .error .nameTooLong
      else .ok (t.put place e)
    | .ok _ => .error .notADirectory

def writeFile (t : FileTree) (p : Path) (data : Bytes) : Except IoError FileTree :=
  t.putFile p (.file data)

def removeFile (t : FileTree) (p : Path) : Except IoError FileTree :=
  match t.locate p with
  | .error e => .error e
  | .ok (_, .directory) => .error .isADirectory
  | .ok (place, _) => .ok ⟨t.entries.erase place⟩

/-- Remove a directory with all that is in it.  What is in it goes first, and
    with it perhaps the way that the path takes to the directory, which then
    stays; by a dot a directory cannot be removed. -/
def removeDirectory (t : FileTree) (p : Path) : Except IoError Unit × FileTree :=
  match t.locate p with
  | .error e => (.error e, t)
  | .ok (place, .directory) =>
    let emptied : FileTree := ⟨t.entries.filter fun q _ => !place.isPrefixOf q || q = place⟩
    match emptied.walk [] p.trim.dropLast with
    | .error _ => (.ok (), emptied)
    | .ok _ =>
      if p.trim.getLastD "" = "." then (.error .invalidArgument, emptied)
      else (.ok (), ⟨emptied.entries.erase place⟩)
  | .ok _ => (.error .notADirectory, t)

end FileTree

end DedupArchive
