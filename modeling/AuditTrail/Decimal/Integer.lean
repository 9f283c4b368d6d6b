import AuditTrail.Decimal.Digits
import AuditTrail.Text.Blank
import AuditTrail.Text.Digit

/-!
# Reading an integer from free text

An integer may be surrounded by white space, carry one sign, use decimal digits of any script and
separate digits by single underscores. In seven-bit text only tab to carriage return and the
space are white space; any other character brings in the wide sense for the characters beyond.
-/

namespace AuditTrail.Decimal

/-- White space around an integer. -/
def isMargin (c : CodePoint) : Bool := c.isPlainBlank || (127 ≤ c.val && c.isBlank)

def digitAny? (c : CodePoint) : Option Nat := if c.val < 127 then c.digit? else c.decimal?

/-- Digits of an integer after its first digit, in reverse onto `done`. -/
def moreDigits? : Text → List Nat → Option (List Nat)
  | [], done => some done
  | c :: t, done =>
    match digitAny? c with
    | some d => moreDigits? t (d :: done)
    | none =>
      if c.val = 95 then
        match t with
        | [] => none
        | e :: t =>
          match digitAny? e with
          | some d => moreDigits? t (d :: done)
          | none => none
      else none

/-- Digits of an unsigned integer with single underscores between them. -/
def unsignedDigits? : Text → Option (List Nat)
  | [] => none
  | c :: t =>
    match digitAny? c with
    | some d => (moreDigits? t [d]).map List.reverse
    | none => none

def boundedValue? (ds : List Nat) : Option Nat :=
  if ds.length ≤ digitLimit then some (value ds) else none

def readInteger (t : Text) : Option Int :=
  match Text.trimmed isMargin t with
  | [] => none
  | c :: rest =>
    if c.val = 45 then
      ((unsignedDigits? rest).bind boundedValue?).map fun n => -(n : Int)
    else if c.val = 43 then
      ((unsignedDigits? rest).bind boundedValue?).map Int.ofNat
    else
      ((unsignedDigits? (c :: rest)).bind boundedValue?).map Int.ofNat

end AuditTrail.Decimal
