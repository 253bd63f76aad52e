/-
  DedupArchive/Bytes.lean
  =======================
  **Byte strings and the texts they spell.**

  Everything the library stores, cuts and hashes is a byte string.  A byte
  string is a plain list, so that cutting it, joining it and comparing it are
  the list operations, and the list lemmas speak about stored data directly.
-/

namespace DedupArchive

abbrev Bytes := List UInt8

namespace Bytes

def ofText (text : String) : Bytes := text.toUTF8.data.toList

def toText? (bytes : Bytes) : Option String := String.fromUTF8? ⟨bytes.toArray⟩

end Bytes

end DedupArchive
