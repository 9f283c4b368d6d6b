import AuditTrail.Text.Ranges

/-!
# White space

White space in the wide sense: spaces, line ends, tabs and the four information separators.
-/

namespace AuditTrail

def blankBounds : List Nat := [
  9, 14, 28, 33, 133, 134, 160, 161, 5760, 5761, 8192, 8203, 8232, 8234, 8239, 8240, 8287, 8288,
  12288, 12289]

def CodePoint.isBlank (c : CodePoint) : Bool := c.inClass blankBounds

/-- The six white space characters of seven-bit text: tab to carriage return, and space. -/
def CodePoint.isPlainBlank (c : CodePoint) : Bool := c.val == 32 || (9 ≤ c.val && c.val ≤ 13)

namespace Text

def trimmed (blank : CodePoint → Bool) (t : Text) : Text :=
  ((t.dropWhile blank).reverse.dropWhile blank).reverse

def trim (t : Text) : Text := trimmed CodePoint.isBlank t

end Text

end AuditTrail
