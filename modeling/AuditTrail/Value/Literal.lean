import AuditTrail.Decimal.Layout
import AuditTrail.Text.Quoted
import AuditTrail.Value

/-!
# Values in messages

The literal of a value shows its type: texts stand in quotation marks and a whole floating point
number ends in `.0`. Displayed by itself a text has no quotation marks. An integer with too many
digits has no literal, nor has a value that holds one.
-/

namespace AuditTrail

/-- Messages write an exponent from sixteen digits before the point and from four zeros after it. -/
def messageStyle : DecimalStyle := ⟨-4, 16, true, 2⟩

def Binary64.literal (x : Binary64) : Text :=
  let sign : Text := if x.isNegative then lit "-" else []
  if x.isNaN then lit "nan"
  else if !x.isFinite then sign ++ lit "inf"
  else if x.isZero then sign ++ lit "0.0"
  else sign ++ x.shortest.layout messageStyle

namespace Value

/-- An integer in a message, unless it has too many digits. -/
def intLiteral? (i : Int) : Option Text := if Decimal.isOversized i then none else some (Decimal.ofInt i)

def objectLiteral (name : Text) : Text :=
  if name = lit "ellipsis" then lit "Ellipsis" else lit "<" ++ name ++ lit ">"

mutual
def literal? : Value → Option Text
  | .null => some (lit "None")
  | .bool b => some (lit (if b then "True" else "False"))
  | .int i => intLiteral? i
  | .float x => some x.literal
  | .text t => some (Quoted.text t)
  | .list xs => (literals? xs).map fun ts => lit "[" ++ Text.join (lit ", ") ts ++ lit "]"
  | .tuple xs => (literals? xs).map fun
    | [t] => lit "(" ++ t ++ lit ",)"
    | ts => lit "(" ++ Text.join (lit ", ") ts ++ lit ")"
  | .map fs => (fieldLiterals? fs).map fun ts => lit "\x7b" ++ Text.join (lit ", ") ts ++ lit "\x7d"
  | .bytes bs => some (Quoted.octets bs)
  | .object name => some (objectLiteral name)
termination_by structural v => v

def literals? : List Value → Option (List Text)
  | [] => some []
  | x :: xs =>
    match literal? x, literals? xs with
    | some t, some ts => some (t :: ts)
    | _, _ => none
termination_by structural xs => xs

def fieldLiterals? : List (Value × Value) → Option (List Text)
  | [] => some []
  | f :: fs =>
    match fieldLiteral? f, fieldLiterals? fs with
    | some t, some ts => some (t :: ts)
    | _, _ => none
termination_by structural fs => fs

def fieldLiteral? : Value × Value → Option Text
  | (k, v) =>
    match literal? k, literal? v with
    | some s, some t => some (s ++ lit ": " ++ t)
    | _, _ => none
termination_by structural f => f
end

def display? : Value → Option Text
  | .text t => some t
  | v => v.literal?

/-- A value by itself in a message; one without a literal shows nothing. -/
def display (v : Value) : Text := v.display?.getD []

end Value

end AuditTrail
