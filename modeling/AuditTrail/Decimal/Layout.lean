import AuditTrail.Decimal.Shortest

/-!
# Laying out a decimal

A style says where plain notation ends and how an exponent is written. Digits and their order are
the same in every style.
-/

namespace AuditTrail

structure DecimalStyle where
  /-- Plain notation needs a point position above this. -/
  low : Int
  /-- Plain notation needs a point position of at most this. -/
  high : Int
  /-- A whole number in plain notation ends in `.0`. -/
  wholePoint : Bool
  exponentWidth : Nat

namespace Decimal.Pointed

def plain (style : DecimalStyle) (d : Decimal.Pointed) : Text :=
  let k := d.digits.length
  if d.point ≤ 0 then
    lit "0." ++ List.replicate (-d.point).toNat (CodePoint.ofChar '0') ++ textOfDigits d.digits
  else if (k : Int) ≤ d.point then
    textOfDigits d.digits ++ List.replicate (d.point.toNat - k) (CodePoint.ofChar '0') ++
      if style.wholePoint then lit ".0" else []
  else
    textOfDigits (d.digits.take d.point.toNat) ++ lit "." ++ textOfDigits (d.digits.drop d.point.toNat)

/-- One digit before the point, and a signed power of ten. -/
def scientific (style : DecimalStyle) (d : Decimal.Pointed) : Text :=
  let e := d.point - 1
  let mantissa :=
    match d.digits with
    | [] => []
    | [a] => textOfDigits [a]
    | a :: rest => textOfDigits [a] ++ lit "." ++ textOfDigits rest
  mantissa ++ lit "e" ++ lit (if e < 0 then "-" else "+") ++ padded style.exponentWidth e.natAbs

def layout (style : DecimalStyle) (d : Decimal.Pointed) : Text :=
  if style.low < d.point ∧ d.point ≤ style.high then d.plain style else d.scientific style

end Decimal.Pointed

end AuditTrail
