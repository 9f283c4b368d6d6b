import AuditTrail.Text

/-!
# Classes of code points as alternating bounds

A class of code points is a rising list of bounds: the class begins at the first bound, ends
before the second, begins again at the third, and so on.
-/

namespace AuditTrail

/-- Membership in a class given by its bounds; `inside` is the state before the first bound. -/
def inBounds (inside : Bool) : List Nat → Nat → Bool
  | [], _ => inside
  | b :: bs, n => if n < b then inside else inBounds (!inside) bs n

def CodePoint.inClass (bounds : List Nat) (c : CodePoint) : Bool := inBounds false bounds c.val

end AuditTrail
