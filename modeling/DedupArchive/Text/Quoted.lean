/-
  DedupArchive/Text/Quoted.lean
  =============================
  **Text in quotes, for messages.**

  Quotes and backslashes are escaped, the common control characters have an
  escape of one letter, and every other unprintable character is written by its
  number.  A quoted text is thus one line of printable characters.
-/
import DedupArchive.Text.Unprintable

namespace DedupArchive.Text

def quotedChar (c : Char) : List Char :=
  match c with
  | '\x00' => ['\\', '0']
  | '\t' => ['\\', 't']
  | '\r' => ['\\', 'r']
  | '\n' => ['\\', 'n']
  | '\\' => ['\\', '\\']
  | '"' => ['\\', '"']
  | _ => if isUnprintable c then "\\u\x7b".toList ++ Nat.toDigits 16 c.toNat ++ ['\x7d'] else [c]

def quoted (text : String) : String :=
  String.ofList ('"' :: text.toList.flatMap quotedChar ++ ['"'])

end DedupArchive.Text
