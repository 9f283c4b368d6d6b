import AuditTrail.Text.Printable

/-!
# Quoted text

Texts and octets in quotation marks, as messages show them. Single quotes are used unless the
text holds a single quote and no double one; what cannot be printed is written as an escape.
-/

namespace AuditTrail.Quoted

/-- The quotation mark for a text that holds single or double quotes. -/
def markFor (single double : Bool) : CodePoint :=
  if single && !double then CodePoint.ofChar '"' else CodePoint.ofChar '\''

def shortEscape? (mark c : CodePoint) : Option Text :=
  if c = mark ∨ c.val = 92 then some [CodePoint.ofChar '\\', c]
  else match c.val with
    | 9 => some (lit "\\t")
    | 10 => some (lit "\\n")
    | 13 => some (lit "\\r")
    | _ => none

def codePoint (mark c : CodePoint) : Text :=
  match shortEscape? mark c with
  | some e => e
  | none =>
    if c.isPrintable then [c]
    else if c.val < 0x100 then lit "\\x" ++ Text.hex 2 c.val
    else if c.val < 0x10000 then lit "\\u" ++ Text.hex 4 c.val
    else lit "\\U" ++ Text.hex 8 c.val

def text (t : Text) : Text :=
  let mark := markFor (t.any (·.val == 39)) (t.any (·.val == 34))
  mark :: t.flatMap (codePoint mark) ++ [mark]

def octet (mark : CodePoint) (b : UInt8) : Text :=
  let c := CodePoint.ofNat b.toNat
  match shortEscape? mark c with
  | some e => e
  | none => if 32 ≤ c.val ∧ c.val < 127 then [c] else lit "\\x" ++ Text.hex 2 c.val

/-- Octets in quotation marks, after the letter `b`. -/
def octets (bs : List UInt8) : Text :=
  let mark := markFor (bs.any (· == 39)) (bs.any (· == 34))
  CodePoint.ofChar 'b' :: mark :: bs.flatMap (octet mark) ++ [mark]

end AuditTrail.Quoted
