import AuditTrail.Text.Utf8

/-!
# The text of octets in a Unicode form

Stored JSON may be in any Unicode form. Its form shows in a byte order mark or in which of the
first four octets are zero, because a JSON text starts with two seven-bit characters. Lone
surrogates are accepted in every form.
-/

namespace AuditTrail.Octets

/-- A Unicode form of octets, and whether a byte order mark of that many octets stands in front. -/
inductive Form where
  | utf8 (mark : Nat)
  | utf16 (bigEndian : Bool) (mark : Nat)
  | utf32 (bigEndian : Bool) (mark : Nat)
deriving DecidableEq

def unmarkedForm (bs : List UInt8) : Form :=
  match bs with
  | a :: b :: c :: d :: _ =>
    if a = 0 then (if b = 0 then .utf32 true 0 else .utf16 true 0)
    else if b = 0 then (if c = 0 ∧ d = 0 then .utf32 false 0 else .utf16 false 0)
    else .utf8 0
  | [a, b] => if a = 0 then .utf16 true 0 else if b = 0 then .utf16 false 0 else .utf8 0
  | _ => .utf8 0

def form (bs : List UInt8) : Form :=
  match bs.map (·.toNat) with
  | 0x00 :: 0x00 :: 0xFE :: 0xFF :: _ => .utf32 true 4
  | 0xFF :: 0xFE :: 0x00 :: 0x00 :: _ => .utf32 false 4
  | 0xFE :: 0xFF :: _ => .utf16 true 2
  | 0xFF :: 0xFE :: _ => .utf16 false 2
  | 0xEF :: 0xBB :: 0xBF :: _ => .utf8 3
  | _ => unmarkedForm bs

def units16? (bigEndian : Bool) : List UInt8 → Option (List Nat)
  | [] => some []
  | [_] => none
  | a :: b :: rest =>
    let n := if bigEndian then a.toNat * 256 + b.toNat else b.toNat * 256 + a.toNat
    (units16? bigEndian rest).map (n :: ·)

def units32? (bigEndian : Bool) : List UInt8 → Option (List Nat)
  | [] => some []
  | a :: b :: c :: d :: rest =>
    let n :=
      if bigEndian then ((a.toNat * 256 + b.toNat) * 256 + c.toNat) * 256 + d.toNat
      else ((d.toNat * 256 + c.toNat) * 256 + b.toNat) * 256 + a.toNat
    (units32? bigEndian rest).map (n :: ·)
  | _ => none

def isHigh (n : Nat) : Bool := 0xD800 ≤ n && n < 0xDC00

def isLow (n : Nat) : Bool := 0xDC00 ≤ n && n < 0xE000

def joinPair (high low : Nat) : CodePoint :=
  CodePoint.ofNat (0x10000 + (high - 0xD800) * 1024 + (low - 0xDC00))

/-- The text of units of two octets; a lone surrogate stands for itself. -/
def ofUnits16 : List Nat → Text
  | [] => []
  | [a] => [CodePoint.ofNat a]
  | a :: b :: rest =>
    if isHigh a && isLow b then joinPair a b :: ofUnits16 rest
    else CodePoint.ofNat a :: ofUnits16 (b :: rest)

def ofUnits32? (us : List Nat) : Option Text :=
  us.mapM fun n => if n < 0x110000 then some (CodePoint.ofNat n) else none

/-- The text that octets spell in the form they show. -/
def decode? (bs : List UInt8) : Option Text :=
  match form bs with
  | .utf8 mark => Utf8.decode? .accepted (bs.drop mark)
  | .utf16 bigEndian mark => (units16? bigEndian (bs.drop mark)).map ofUnits16
  | .utf32 bigEndian mark => (units32? bigEndian (bs.drop mark)).bind ofUnits32?

end AuditTrail.Octets
