/-
  DedupArchive/Catalog/Cell.lean
  ==============================
  **What a cell of a table can hold.**

  A cell has one of five storage classes whatever its column is meant for: a
  column only prefers a class (`Affinity`), and a value that cannot be turned
  into it without loss is kept as it is.  Cells of all classes are ordered
  together: nothing, then numbers by value, then texts, then byte strings.
-/
import DedupArchive.Bytes
import DedupArchive.Catalog.Real

namespace DedupArchive

inductive Cell where
  | null
  | integer (value : Int)
  | real (value : Rat)
  | text (value : String)
  | blob (value : Bytes)
deriving DecidableEq, Repr

inductive StorageClass where
  | null
  | integer
  | real
  | text
  | blob
deriving DecidableEq, Repr

def StorageClass.name : StorageClass → String
  | .null => "Null"
  | .integer => "Integer"
  | .real => "Real"
  | .text => "Text"
  | .blob => "Blob"

namespace Cell

def storage : Cell → StorageClass
  | .null => .null
  | .integer _ => .integer
  | .real _ => .real
  | .text _ => .text
  | .blob _ => .blob

def isNull : Cell → Bool
  | .null => true
  | _ => false

/-! ### Order -/

def rank : Cell → Nat
  | .null => 0
  | .integer _ | .real _ => 1
  | .text _ => 2
  | .blob _ => 3

def le : Cell → Cell → Bool
  | .null, _ => true
  | .integer a, .integer b => a ≤ b
  | .integer a, .real b => (a : Rat) ≤ b
  | .real a, .integer b => a ≤ (b : Rat)
  | .real a, .real b => a ≤ b
  | .text a, .text b => (compare a b).isLE
  | .blob a, .blob b => (compare a b).isLE
  | a, b => a.rank < b.rank

/-- Whether two cells hold the same value; an integer and a fraction may. -/
def same (a b : Cell) : Bool := a.le b && b.le a

/-- Whether a cell equals a value.  Nothing equals no value, not even nothing. -/
def equals (a b : Cell) : Bool := !a.isNull && a.same b

/-! ### Numbers in texts -/

def minInteger : Int := -9223372036854775808
def maxInteger : Int := 9223372036854775807

def isBlank (c : Char) : Bool :=
  c = ' ' || c = '\t' || c = '\n' || c = '\x0b' || c = '\x0c' || c = '\r'

def digitsValue (digits : List Char) : Nat := digits.foldl (fun n c => 10 * n + Decimal.digit c) 0

def splitSign : List Char → Bool × List Char
  | '-' :: rest => (true, rest)
  | '+' :: rest => (false, rest)
  | rest => (false, rest)

def splitFraction : List Char → Option (List Char) × List Char
  | '.' :: rest => (some (rest.takeWhile Char.isDigit), rest.dropWhile Char.isDigit)
  | rest => (none, rest)

/-- The value of the digits of an exponent.  From five digits on the exact value
    does not matter: the number is beyond all fractions, or zero. -/
def exponentValue (digits : List Char) : Nat :=
  digits.foldl (fun e c => if e < 10000 then 10 * e + Decimal.digit c else 10000) 0

/-- An exponent, if there is one: its value, or `none` if it has no digits. -/
def splitExponent : List Char → Option (Option Int × List Char)
  | c :: rest =>
    if c = 'e' ∨ c = 'E' then
      let (negative, rest) := splitSign rest
      let digits := rest.takeWhile Char.isDigit
      if digits.isEmpty then none
      else
        let size : Int := exponentValue digits
        some (some (if negative then -size else size), rest.dropWhile Char.isDigit)
    else some (none, c :: rest)
  | [] => some (none, [])

/-- The number a text is written as, if it is nothing but a number. -/
def number? (text : String) : Option Cell :=
  let (negative, rest) := splitSign (text.toList.dropWhile isBlank)
  let whole := rest.takeWhile Char.isDigit
  let (fraction, rest) := splitFraction (rest.dropWhile Char.isDigit)
  match splitExponent rest with
  | none => none
  | some (exponent, rest) =>
    if (whole ++ fraction.getD []).isEmpty || !rest.all isBlank then none
    else
      let size : Int := digitsValue whole
      let value := if negative then -size else size
      if fraction.isNone && exponent.isNone && minInteger ≤ value && value ≤ maxInteger then
        some (.integer value)
      else
        let size := (Decimal.ofParts whole (fraction.getD []) (exponent.getD 0)).real
        some (.real (if negative then -size else size))

/-- A fraction without fractional part as the integer it is, unless it lies at
    or beyond the ends of the integers. -/
def wholeReal (q : Rat) : Cell :=
  if q.den = 1 ∧ minInteger < q.num ∧ q.num < maxInteger then .integer q.num else .real q

end Cell

/-! ### Columns -/

/-- What a column prefers to hold. -/
inductive Affinity where
  | integer
  | text
  | blob
deriving DecidableEq, Repr

namespace Affinity

/-- Turn a value into what a column prefers, where that loses nothing. -/
def apply : Affinity → Cell → Cell
  | .integer, .real q => Cell.wholeReal q
  | .integer, .text t =>
    match Cell.number? t with
    | some (.real q) => Cell.wholeReal q
    | some value => value
    | none => .text t
  | .text, .integer i => .text (toString i)
  | .text, .real q => .text (realText q)
  | _, value => value

end Affinity

end DedupArchive
