import AuditTrail.Decimal.Digits

/-!
# Binary floating point numbers

A number is its sixty-four bits. A finite one has the exact magnitude `significand * 2 ^ exponent`;
`nearestBits` gives the magnitude nearest to a fraction, a tie going to the even significand.
-/

namespace AuditTrail

/-- A floating point number in the 64-bit binary format. -/
structure Binary64 where
  bits : UInt64
deriving DecidableEq

namespace Binary64

def isNegative (x : Binary64) : Bool := Nat.pow 2 63 ≤ x.bits.toNat

def magnitudeBits (x : Binary64) : Nat := x.bits.toNat % Nat.pow 2 63

def exponentField (x : Binary64) : Nat := x.magnitudeBits / Nat.pow 2 52

def fraction (x : Binary64) : Nat := x.magnitudeBits % Nat.pow 2 52

def isFinite (x : Binary64) : Bool := x.exponentField < 2047

def isNaN (x : Binary64) : Bool := !x.isFinite && x.fraction != 0

def isZero (x : Binary64) : Bool := x.magnitudeBits == 0

def significand (x : Binary64) : Nat :=
  if x.exponentField = 0 then x.fraction else x.fraction + Nat.pow 2 52

def exponent (x : Binary64) : Int := (if x.exponentField = 0 then 1 else (x.exponentField : Int)) - 1075

def infinityBits : Nat := 2047 * Nat.pow 2 52

def ofMagnitude (negative : Bool) (bits : Nat) : Binary64 :=
  ⟨UInt64.ofNat (bits % Nat.pow 2 63 + if negative then Nat.pow 2 63 else 0)⟩

/-- The quotient `num / (den * 2 ^ e)` as a fraction. -/
def scaled (num den : Nat) (e : Int) : Nat × Nat :=
  if 0 ≤ e then (num, den * Nat.pow 2 e.toNat) else (num * Nat.pow 2 (-e).toNat, den)

/-- The integer nearest to a fraction, a tie going to the even one. -/
def roundEven (num den : Nat) : Nat :=
  let q := num / den
  let r := num % den
  if 2 * r < den then q
  else if den < 2 * r then q + 1
  else if q % 2 = 0 then q else q + 1

/-- The power of two of the last place of a fraction's nearest number. -/
def lastPlace (num den : Nat) : Int :=
  let e : Int := max ((num.log2 : Int) - den.log2 - 52) (-1074)
  let (a, b) := scaled num den e
  if a / b < Nat.pow 2 52 ∧ -1074 < e then e - 1 else e

/-- Magnitude bits of the number nearest to a fraction. -/
def nearestBits (num den : Nat) : Nat :=
  if num = 0 then 0 else
    let e := lastPlace num den
    let (a, b) := scaled num den e
    min ((e + 1074).toNat * Nat.pow 2 52 + roundEven a b) infinityBits

/-- Magnitude bits of the number nearest to `d * 10 ^ e`; far exponents are settled at once. -/
def decimalBits (d : Nat) (e : Int) : Nat :=
  if d = 0 then 0
  else if 400 < e then infinityBits
  else if e < -(401 + (d.log2 : Int)) then 0
  else if 0 ≤ e then nearestBits (d * Nat.pow 10 e.toNat) 1
  else nearestBits d (Nat.pow 10 (-e).toNat)

def ofDecimal (negative : Bool) (d : Nat) (e : Int) : Binary64 := ofMagnitude negative (decimalBits d e)

/-- Numerical equality: the zeros are equal and a NaN equals nothing. -/
def sameNumber (x y : Binary64) : Bool :=
  if x.isNaN || y.isNaN then false else x == y || (x.isZero && y.isZero)

def isInteger (x : Binary64) (i : Int) : Bool :=
  if x.isFinite then
    let m : Int := if x.isNegative then -(x.significand : Int) else x.significand
    if 0 ≤ x.exponent then m * Int.pow 2 x.exponent.toNat == i else m == i * Int.pow 2 (-x.exponent).toNat
  else false

end Binary64

end AuditTrail
