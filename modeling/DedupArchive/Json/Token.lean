/-
  DedupArchive/Json/Token.lean
  ============================
  **JSON as a row of tokens.**

  The lexer is an automaton: `Lexer.step` takes one character, and the tokens of
  a text are what a fold of `step` leaves.  It accepts the strict grammar only:
  no comments, no leading zeros, no raw control characters in strings.

  A number token keeps the value of a plain non-negative integer and nothing of
  any other number.  A string token keeps the text, unless an escape names half
  of a surrogate pair: then there is no text, though the token is well formed.
-/

namespace DedupArchive.Json

/-- A token of JSON text.  A number has a value if it is written as digits alone, a
    string a text if every surrogate has its partner. -/
inductive Token where
  | openObject
  | closeObject
  | openArray
  | closeArray
  | comma
  | colon
  | null
  | boolean (value : Bool)
  | number (value : Option Nat)
  | string (text : Option String)
deriving DecidableEq, Repr

/-! ### Parts of a number -/

/-- How much of a number has been read; `zero` is a single zero before the point,
    `mark` the mark of the exponent. -/
inductive NumberPart where
  | sign
  | zero
  | digits
  | point
  | fraction
  | mark
  | markSign
  | exponent
deriving DecidableEq, Repr

def NumberPart.next? (part : NumberPart) (c : Char) : Option NumberPart :=
  match part with
  | .sign => if c = '0' then some .zero else if c.isDigit then some .digits else none
  | .zero => if c = '.' then some .point else if c = 'e' ∨ c = 'E' then some .mark else none
  | .digits =>
    if c.isDigit then some .digits
    else if c = '.' then some .point
    else if c = 'e' ∨ c = 'E' then some .mark
    else none
  | .point => if c.isDigit then some .fraction else none
  | .fraction =>
    if c.isDigit then some .fraction else if c = 'e' ∨ c = 'E' then some .mark else none
  | .mark =>
    if c = '+' ∨ c = '-' then some .markSign else if c.isDigit then some .exponent else none
  | .markSign => if c.isDigit then some .exponent else none
  | .exponent => if c.isDigit then some .exponent else none

def NumberPart.isComplete : NumberPart → Bool
  | .zero | .digits | .fraction | .exponent => true
  | .sign | .point | .mark | .markSign => false

/-! ### Parts of a string -/

/-- A string that is being read: its characters, the last one first; a first half of a
    surrogate pair that waits for the second; and whether all others have their
    partners. -/
structure OpenString where
  chars : List Char
  half : Option Nat
  paired : Bool

namespace OpenString

def start : OpenString := ⟨[], none, true⟩

/-- Add a character; a waiting half pair stays without partner. -/
def add (s : OpenString) (c : Char) : OpenString := ⟨c :: s.chars, none, s.paired && s.half.isNone⟩

def addUnit (s : OpenString) (unit : Nat) : OpenString :=
  if 0xD800 ≤ unit ∧ unit < 0xDC00 then ⟨s.chars, some unit, s.paired && s.half.isNone⟩
  else if 0xDC00 ≤ unit ∧ unit < 0xE000 then
    match s.half with
    | some high =>
      ⟨Char.ofNat (0x10000 + (high - 0xD800) * 0x400 + (unit - 0xDC00)) :: s.chars, none, s.paired⟩
    | none => ⟨s.chars, none, false⟩
  else s.add (Char.ofNat unit)

def text? (s : OpenString) : Option String :=
  if s.paired && s.half.isNone then some (String.ofList s.chars.reverse) else none

end OpenString

/-- The character a one-letter escape stands for. -/
def escaped? (c : Char) : Option Char :=
  match c with
  | '"' | '\\' | '/' => some c
  | 'b' => some '\x08'
  | 'f' => some '\x0c'
  | 'n' => some '\n'
  | 'r' => some '\r'
  | 't' => some '\t'
  | _ => none

def hexValue? (c : Char) : Option Nat :=
  if c.isDigit then some (c.toNat - 48)
  else if 'a' ≤ c ∧ c ≤ 'f' then some (c.toNat - 87)
  else if 'A' ≤ c ∧ c ≤ 'F' then some (c.toNat - 55)
  else none

/-! ### The automaton -/

/-- What the lexer is in the middle of.  A word has the characters it still needs;
    `unit` is an escape by number, with the digits still to come and the value so far. -/
inductive Lexer.Mode where
  | between
  | word (token : Token) (missing : List Char)
  | number (part : NumberPart) (value : Option Nat)
  | string (read : OpenString)
  | escape (read : OpenString)
  | unit (read : OpenString) (missing : Nat) (value : Nat)

/-- The lexer: its mode and the tokens read, the last one first. -/
structure Lexer where
  mode : Lexer.Mode
  tokens : List Token

namespace Lexer

def start : Lexer := ⟨.between, []⟩

/-- The mode that a character opens between tokens, or the token that it is. -/
def opening? (tokens : List Token) (c : Char) : Option Lexer :=
  match c with
  | ' ' | '\n' | '\t' | '\r' => some ⟨.between, tokens⟩
  | '{' => some ⟨.between, .openObject :: tokens⟩
  | '}' => some ⟨.between, .closeObject :: tokens⟩
  | '[' => some ⟨.between, .openArray :: tokens⟩
  | ']' => some ⟨.between, .closeArray :: tokens⟩
  | ',' => some ⟨.between, .comma :: tokens⟩
  | ':' => some ⟨.between, .colon :: tokens⟩
  | '"' => some ⟨.string .start, tokens⟩
  | 'n' => some ⟨.word .null ['u', 'l', 'l'], tokens⟩
  | 't' => some ⟨.word (.boolean true) ['r', 'u', 'e'], tokens⟩
  | 'f' => some ⟨.word (.boolean false) ['a', 'l', 's', 'e'], tokens⟩
  | '-' => some ⟨.number .sign none, tokens⟩
  | '0' => some ⟨.number .zero (some 0), tokens⟩
  | _ => if c.isDigit then some ⟨.number .digits (some (c.toNat - 48)), tokens⟩ else none

def extend (value : Option Nat) (c : Char) : Option Nat :=
  if c.isDigit then value.map fun n => 10 * n + (c.toNat - 48) else none

/-- Take one character; `none` if no JSON text goes on like this. -/
def step (l : Lexer) (c : Char) : Option Lexer :=
  match l.mode with
  | .between => opening? l.tokens c
  | .word token missing =>
    match missing with
    | [] => none
    | [last] => if c = last then some ⟨.between, token :: l.tokens⟩ else none
    | next :: rest => if c = next then some ⟨.word token rest, l.tokens⟩ else none
  | .number part value =>
    match part.next? c with
    | some part => some ⟨.number part (extend value c), l.tokens⟩
    | none => if part.isComplete then opening? (.number value :: l.tokens) c else none
  | .string read =>
    if c = '"' then some ⟨.between, .string read.text? :: l.tokens⟩
    else if c = '\\' then some ⟨.escape read, l.tokens⟩
    else if c.toNat < 0x20 then none
    else some ⟨.string (read.add c), l.tokens⟩
  | .escape read =>
    if c = 'u' then some ⟨.unit read 4 0, l.tokens⟩
    else (escaped? c).map fun c => ⟨.string (read.add c), l.tokens⟩
  | .unit read missing value =>
    (hexValue? c).map fun digit =>
      if missing ≤ 1 then ⟨.string (read.addUnit (16 * value + digit)), l.tokens⟩
      else ⟨.unit read (missing - 1) (16 * value + digit), l.tokens⟩

def finish? (l : Lexer) : Option (List Token) :=
  match l.mode with
  | .between => some l.tokens.reverse
  | .number part value => if part.isComplete then some (.number value :: l.tokens).reverse else none
  | _ => none

end Lexer

def tokens? (text : List Char) : Option (List Token) :=
  (text.foldlM Lexer.step .start).bind Lexer.finish?

end DedupArchive.Json
