/-
  DedupArchive/Catalog/Real.lean
  ==============================
  **Fractional numbers in a table.**

  A table keeps a fractional number as a binary fraction of 53 bits.  Such a
  number is a rational, and is handled as one; `2 ^ 1024` stands for all that
  lies beyond the greatest of them.  `toBinary` gives the nearest binary
  fraction of a rational, `Decimal.real` the one that a decimal text spells and
  `realText` the text of one, of at most fifteen digits.
-/
import DedupArchive.Catalog.Extended

namespace DedupArchive

/-! ### Binary fractions -/

/-- What stands for every number beyond the greatest binary fraction. -/
def beyondReal : Rat := (Nat.pow 2 1024 : Nat)

def greatestReal : Extended := ⟨9007199254740991, 971⟩

/-- The nearest binary fraction of 53 bits to a quotient, a half to the even
    one; below the normal range the last bit stands for `2 ^ -1074`. -/
def nearestReal (a b : Nat) : Rat :=
  let exponent := max (binaryExponent 53 a b) (-1074)
  let (x, y) := scaleDown 2 a b exponent
  let rounded : Extended := ⟨divHalfEven x y, exponent⟩
  if greatestReal.lt rounded then beyondReal else mkRat rounded.ratio.1 rounded.ratio.2

def toBinary (q : Rat) : Rat :=
  let size := nearestReal q.num.natAbs q.den
  if q.num < 0 then -size else size

/-! ### Decimal texts -/

/-- The number `digits * 10 ^ exponent`, as a decimal text spells it. -/
structure Decimal where
  digits : Nat
  exponent : Int
deriving DecidableEq, Repr

namespace Decimal

def digit (c : Char) : Nat := c.toNat - 48

/-- Append digits to a number while it and one more digit fit in 64 bits; the
    digits that do not fit are given back. -/
def append (n : Nat) : List Char → Nat × List Char
  | [] => (n, [])
  | c :: rest =>
    if n < 1844674407370955160 then append (10 * n + digit c) rest else (n, c :: rest)

/-- The number that digits before and after a point and an exponent spell.
    Digits before the point that do not fit still count as places. -/
def ofParts (whole fraction : List Char) (exponent : Int) : Decimal :=
  let (n, unread) := append 0 whole
  let (n, dropped) := append n fraction
  ⟨n, exponent + unread.length - (fraction.length - dropped.length : Nat)⟩

/-- Move places of the exponent into the digits while they fit in 64 bits; the
    digits and the places left. -/
def raise (n : Nat) : Nat → Nat × Nat
  | 0 => (n, 0)
  | e + 1 => if n < 1844674407370955161 then raise (10 * n) e else (n, e + 1)

/-- Take zeros off the end of the digits, at most so many; the digits and the
    places left. -/
def lower (n : Nat) : Nat → Nat × Nat
  | 0 => (n, 0)
  | e + 1 => if n % 10 = 0 then lower (n / 10) e else (n, e + 1)

def compact (d : Decimal) : Decimal :=
  match d.exponent with
  | .ofNat e =>
    let (n, e) := raise d.digits e
    ⟨n, e⟩
  | .negSucc e =>
    let (n, e) := lower d.digits (e + 1)
    ⟨n, -e⟩

/-- The binary fraction that a decimal number is read as. -/
def real (d : Decimal) : Rat :=
  if d.digits = 0 then 0
  else
    let d := d.compact
    let x := Extended.mulTenTo ⟨d.digits, 0⟩ d.exponent
    if greatestReal.lt x then beyondReal else nearestReal x.ratio.1 x.ratio.2

end Decimal

/-! ### The text of a number -/

def divHalfUp (a b : Nat) : Nat := (2 * a + b) / (2 * b)

def dropTrailingZeros (digits : List Char) : List Char :=
  (digits.reverse.dropWhile (· == '0')).reverse

def fractionText (digits : List Char) : String :=
  match dropTrailingZeros digits with
  | [] => "0"
  | digits => String.ofList digits

/-- The fifteen leading digits of a positive number, and the place of the first. -/
def leadingDigits (x : Extended) : Nat × Int :=
  let (n, moved) := x.digits
  let size := (Nat.toDigits 10 n).length
  let rounded := divHalfUp n (Nat.pow 10 (size - 15))
  let place := (size : Int) - 1 - moved
  if rounded = 1000000000000000 then (100000000000000, place + 1) else (rounded, place)

/-- The text of a fractional number: fifteen digits without the zeros at the end,
    positional from `0.0001` up to fifteen places before the point, and with at
    least one digit after the point. -/
def realText (q : Rat) : String :=
  let a := q.num.natAbs
  let sign := if q.num < 0 then "-" else ""
  if a = 0 then "0.0"
  else if beyondReal ≤ mkRat a q.den then sign ++ "Inf"
  else
    let (rounded, place) := leadingDigits (Extended.ofRatio a q.den)
    let digits := Nat.toDigits 10 rounded
    if place < -4 ∨ 14 < place then
      let size := place.natAbs
      sign ++ String.ofList (digits.take 1) ++ "." ++ fractionText (digits.drop 1) ++
        (if place < 0 then "e-" else "e+") ++ (if size < 10 then "0" else "") ++ toString size
    else if place < 0 then
      sign ++ "0." ++ fractionText (List.replicate (place.natAbs - 1) '0' ++ digits)
    else
      let whole := place.toNat + 1
      sign ++ String.ofList (digits.take whole) ++ "." ++ fractionText (digits.drop whole)

end DedupArchive
