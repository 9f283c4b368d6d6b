import AuditTrail.Decimal.Binary64

/-!
# Shortest decimal digits

The fewest digits that read back as the same floating point number; of several such digit
sequences the one nearest to the number, and of two equally near ones the even one. The number is
`0.d₁d₂… * 10 ^ point`.
-/

namespace AuditTrail

/-- Digits after a leading point, times a power of ten. -/
structure Decimal.Pointed where
  digits : List Nat
  point : Int
deriving DecidableEq

namespace Binary64

/-- The magnitude times `10 ^ 1074`, which is an integer for every finite number. -/
def exactScaled (x : Binary64) : Nat :=
  x.significand * Nat.pow 2 (x.exponent + 1074).toNat * Nat.pow 5 1074

def exactDigits (x : Binary64) : Decimal.Pointed :=
  let ds := Decimal.digits x.exactScaled
  ⟨ds, (ds.length : Int) - 1074⟩

/-- `d * 10 ^ e` reads back as the magnitude of a number. -/
def readsBack (x : Binary64) (d : Nat) (e : Int) : Bool := decimalBits d e == x.magnitudeBits

def dropZeros (ds : List Nat) : List Nat := (ds.reverse.dropWhile (· == 0)).reverse

/-- `d * 10 ^ e` without zeros at the end of its digits. -/
def plainDigits (d : Nat) (e : Int) : Decimal.Pointed :=
  let ds := Decimal.digits d
  ⟨dropZeros ds, (ds.length : Int) + e⟩

/-- The neighbour below is nearer than the one above, or as near and even. -/
def prefersBelow (x : Binary64) (low : Nat) (places : Nat) : Bool :=
  let gap := 2 * (x.exactScaled - low * Nat.pow 10 places)
  gap < Nat.pow 10 places || (gap == Nat.pow 10 places && low % 2 == 0)

/-- The decimal of a given count of digits that reads back, if there is one. -/
def withDigits? (x : Binary64) (exact : Decimal.Pointed) (count : Nat) :
    Option Decimal.Pointed :=
  let low := Decimal.value (exact.digits.take count)
  let e := exact.point - count
  let places := exact.digits.length - count
  match x.readsBack low e, x.readsBack (low + 1) e with
  | true, true => some (if x.prefersBelow low places then plainDigits low e else plainDigits (low + 1) e)
  | true, false => some (plainDigits low e)
  | false, true => some (plainDigits (low + 1) e)
  | false, false => none

/-- The shortest digits of a finite number other than zero. -/
def shortest (x : Binary64) : Decimal.Pointed :=
  let exact := x.exactDigits
  match (List.range' 1 17).findSome? (x.withDigits? exact) with
  | some d => d
  | none => ⟨dropZeros exact.digits, exact.point⟩

end Binary64

end AuditTrail
