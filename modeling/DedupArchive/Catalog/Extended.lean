/-
  DedupArchive/Catalog/Extended.lean
  ==================================
  **Numbers of the working precision.**

  Between a decimal text and a fractional number of a table stands a number with
  a significand of 64 bits.  Every product is rounded to it, so powers of ten
  that are multiplied on leave a small error, and the order of the factors is
  part of the result.
-/

namespace DedupArchive

/-- The quotient rounded to the nearest integer, a half to the even one. -/
def divHalfEven (a b : Nat) : Nat :=
  let q := a / b
  let r := 2 * (a % b)
  if r < b then q else if b < r then q + 1 else if q % 2 = 0 then q else q + 1

/-- The quotient of `a / b` by a power of a base, as numerator and denominator. -/
def scaleDown (base : Nat) (a b : Nat) : Int → Nat × Nat
  | .ofNat e => (a, b * base.pow e)
  | .negSucc e => (a * base.pow (e + 1), b)

/-- The exponent with which a positive quotient has a significand of so many bits. -/
def binaryExponent (bits : Nat) (a b : Nat) : Int :=
  let estimate : Int := (a.log2 : Int) - b.log2 - (bits - 1 : Nat)
  let (x, y) := scaleDown 2 a b estimate
  if x < Nat.pow 2 (bits - 1) * y then estimate - 1 else estimate

/-- The number `significand * 2 ^ exponent`. -/
structure Extended where
  significand : Nat
  exponent : Int
deriving DecidableEq, Repr

namespace Extended

def ofRatio (a b : Nat) : Extended :=
  let exponent := binaryExponent 64 a b
  let (x, y) := scaleDown 2 a b exponent
  ⟨divHalfEven x y, exponent⟩

def tenTo (n : Int) : Extended :=
  let (a, b) := scaleDown 10 1 1 (-n)
  ofRatio a b

def mul (x y : Extended) : Extended :=
  let product := x.significand * y.significand
  let excess := product.log2 - 63
  ⟨divHalfEven product (Nat.pow 2 excess), x.exponent + y.exponent + excess⟩

def ratio (x : Extended) : Nat × Nat := scaleDown 2 x.significand 1 (-x.exponent)

def floor (x : Extended) : Nat := x.ratio.1 / x.ratio.2

def lt (x y : Extended) : Bool := x.ratio.1 * y.ratio.2 < y.ratio.1 * x.ratio.2

def mulTimes (x factor : Extended) : Nat → Extended
  | 0 => x
  | n + 1 => (x.mul factor).mulTimes factor n

/-- Multiply by a power of ten: hundred places at a time, then ten, then one. -/
def mulTenTo (x : Extended) (n : Int) : Extended :=
  let places := n.natAbs
  let unit (size : Int) : Extended := tenTo (if n < 0 then -size else size)
  let x := x.mulTimes (unit 100) (places / 100)
  let x := x.mulTimes (unit 10) (places % 100 / 10)
  x.mulTimes (unit 1) (places % 10)

/-- Multiply by a factor while a test holds, at most so many times; the number
    reached and how often. -/
def mulWhile (test : Extended → Bool) (factor : Extended) : Nat → Extended → Extended × Nat
  | 0, x => (x, 0)
  | fuel + 1, x =>
    if test x then
      let (x, n) := mulWhile test factor fuel (x.mul factor)
      (x, n + 1)
    else (x, 0)

/-- A number as a whole number of eighteen or nineteen digits and the number of
    places that it was moved up by. -/
def digits (x : Extended) : Nat × Int :=
  if x.lt (tenTo 19) then
    let (x, hundreds) := mulWhile (·.lt (tenTo (-97))) (tenTo 100) 20 x
    let (x, tens) := mulWhile (·.lt (tenTo 7)) (tenTo 10) 20 x
    let (x, ones) := mulWhile (·.lt (tenTo 17)) (tenTo 1) 20 x
    (x.floor, 100 * hundreds + 10 * tens + ones)
  else
    let (x, hundreds) := mulWhile (fun x => !x.lt (tenTo 119)) (tenTo (-100)) 20 x
    let (x, tens) := mulWhile (fun x => !x.lt (tenTo 29)) (tenTo (-10)) 20 x
    let (x, ones) := mulWhile (fun x => !x.lt (tenTo 19)) (tenTo (-1)) 20 x
    (x.floor, -(100 * hundreds + 10 * tens + ones))

end Extended

end DedupArchive
