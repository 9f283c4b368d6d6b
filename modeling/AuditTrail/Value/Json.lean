import AuditTrail.Fault
import AuditTrail.Text.Octets

/-!
# Reading JSON

A number without fraction and exponent is an integer, any other a floating point number; `NaN` and
the infinities are numbers too. A lone surrogate may be escaped, and two escapes in a row that form
a surrogate pair are one code point. Of several fields with one key the last counts.
-/

namespace AuditTrail.Json

def malformed : Fault := .platform .malformedJson

def isSpace (c : CodePoint) : Bool := c.val == 32 || c.val == 9 || c.val == 10 || c.val == 13

def skip (t : Text) : Text := t.dropWhile isSpace

def shortEscape? (c : CodePoint) : Option CodePoint :=
  match c.val with
  | 0x22 | 0x5C | 0x2F => some c
  | 0x62 => some (CodePoint.ofNat 8)
  | 0x66 => some (CodePoint.ofNat 12)
  | 0x6E => some (CodePoint.ofNat 10)
  | 0x72 => some (CodePoint.ofNat 13)
  | 0x74 => some (CodePoint.ofNat 9)
  | _ => none

def hexUnit? (a b c d : CodePoint) : Option Nat := do
  let a ← a.hexDigit?
  let b ← b.hexDigit?
  let c ← c.hexDigit?
  let d ← d.hexDigit?
  pure (((a * 16 + b) * 16 + c) * 16 + d)

/-- An escaped unit in front of the code points read so far; `paired` tells that the last of them
is an escaped first half of a pair. -/
def pushUnit (n : Nat) (paired : Bool) (done : Text) : Text :=
  match paired && Octets.isLow n, done with
  | true, high :: done => Octets.joinPair high.val n :: done
  | _, done => CodePoint.ofNat n :: done

/-- A text after its opening quotation mark, and what follows its closing one. -/
def readChars : Text → Bool → Text → Option (Text × Text)
  | [], _, _ => none
  | c :: rest, paired, done =>
    if c.val = 0x22 then some (done.reverse, rest)
    else if c.val = 0x5C then
      match rest with
      | [] => none
      | e :: rest =>
        if e.val = 0x75 then
          match rest with
          | p :: q :: r :: s :: rest =>
            match hexUnit? p q r s with
            | some n =>
              let joined := paired && Octets.isLow n
              readChars rest (!joined && Octets.isHigh n) (pushUnit n paired done)
            | none => none
          | _ => none
        else
          match shortEscape? e with
          | some p => readChars rest false (p :: done)
          | none => none
    else if c.val < 0x20 then none
    else readChars rest false (c :: done)

def readFraction (t : Text) : Option (List Nat) × Text :=
  match t with
  | c :: rest =>
    if c.val = 0x2E then
      match Decimal.spanDigits rest with
      | ([], _) => (none, t)
      | (ds, rest) => (some ds, rest)
    else (none, t)
  | [] => (none, t)

def readExponent (t : Text) : Option Int × Text :=
  match t with
  | c :: rest =>
    if c.val = 0x65 ∨ c.val = 0x45 then
      let (negative, digits) : Bool × Text :=
        match rest with
        | s :: rest' => if s.val = 0x2D then (true, rest') else if s.val = 0x2B then (false, rest') else (false, rest)
        | [] => (false, rest)
      match Decimal.spanDigits digits with
      | ([], _) => (none, t)
      | (ds, rest) =>
        let n : Int := Decimal.value ds
        (some (if negative then -n else n), rest)
    else (none, t)
  | [] => (none, t)

/-- The integer digits of a number: a zero alone, or digits that do not start with one. -/
def readWhole (t : Text) : Option (List Nat × Text) :=
  match Decimal.spanDigits t with
  | ([], _) => none
  | (0 :: _, _) => some ([0], t.drop 1)
  | (ds, rest) => some (ds, rest)

def readNumber (negative : Bool) (t : Text) : Except Fault (Value × Text) :=
  match readWhole t with
  | none => .error malformed
  | some (whole, rest) =>
    let (fraction, rest) := readFraction rest
    let (exponent, rest) := readExponent rest
    match fraction, exponent with
    | none, none =>
      if whole.length ≤ Decimal.digitLimit then
        let n : Int := Decimal.value whole
        .ok (.int (if negative then -n else n), rest)
      else .error .oversized
    | _, _ =>
      let places := fraction.getD []
      let d := Decimal.value (whole ++ places)
      .ok (.float (Binary64.ofDecimal negative d (exponent.getD 0 - places.length)), rest)

def nan : Binary64 := Binary64.ofMagnitude false (Binary64.infinityBits + Nat.pow 2 51)

def words : List (Text × Value) := [
  (lit "null", .null),
  (lit "true", .bool true),
  (lit "false", .bool false),
  (lit "NaN", .float nan),
  (lit "Infinity", .float (Binary64.ofMagnitude false Binary64.infinityBits)),
  (lit "-Infinity", .float (Binary64.ofMagnitude true Binary64.infinityBits))]

def readScalar (t : Text) : Except Fault (Value × Text) :=
  match words.findSome? fun w => (Text.dropFront? w.1 t).map fun rest => (w.2, rest) with
  | some found => .ok found
  | none =>
    match t with
    | c :: rest => if c.val = 0x2D then readNumber true rest else readNumber false t
    | [] => .error malformed

/-- A key with its colon, and the text from the key's value on. -/
def readKey : Text → Option (Text × Text)
  | [] => none
  | c :: rest =>
    if c.val = 0x22 then
      match readChars rest false [] with
      | some (k, rest) =>
        match skip rest with
        | d :: after => if d.val = 0x3A then some (k, skip after) else none
        | [] => none
      | none => none
    else none

mutual
/-- A value at the front of a text, and what follows it. -/
def readValue : Nat → Text → Except Fault (Value × Text)
  | 0, _ => .error malformed
  | _ + 1, [] => .error malformed
  | fuel + 1, c :: rest =>
    if c.val = 0x22 then
      match readChars rest false [] with
      | some (t, rest) => .ok (.text t, rest)
      | none => .error malformed
    else if c.val = 0x5B then
      match skip rest with
      | [] => .error malformed
      | d :: after => if d.val = 0x5D then .ok (.list [], after) else readItems fuel (d :: after) []
    else if c.val = 0x7B then
      match skip rest with
      | [] => .error malformed
      | d :: after => if d.val = 0x7D then .ok (.map [], after) else readFields fuel (d :: after) []
    else readScalar (c :: rest)
termination_by structural fuel => fuel

/-- The items of a list from its next item on, after those read so far in reverse. -/
def readItems : Nat → Text → List Value → Except Fault (Value × Text)
  | 0, _, _ => .error malformed
  | fuel + 1, t, done =>
    match readValue fuel t with
    | .error e => .error e
    | .ok (v, rest) =>
      match skip rest with
      | [] => .error malformed
      | d :: after =>
        if d.val = 0x2C then readItems fuel (skip after) (v :: done)
        else if d.val = 0x5D then .ok (.list (v :: done).reverse, after)
        else .error malformed
termination_by structural fuel => fuel

/-- The fields of a map from its next field on, after those read so far in reverse. -/
def readFields : Nat → Text → List (Value × Value) → Except Fault (Value × Text)
  | 0, _, _ => .error malformed
  | fuel + 1, t, done =>
    match readKey t with
    | none => .error malformed
    | some (k, rest) =>
      match readValue fuel rest with
      | .error e => .error e
      | .ok (v, rest) =>
        match skip rest with
        | [] => .error malformed
        | d :: after =>
          if d.val = 0x2C then readFields fuel (skip after) ((.text k, v) :: done)
          else if d.val = 0x7D then .ok (Value.ofFields ((.text k, v) :: done).reverse, after)
          else .error malformed
termination_by structural fuel => fuel
end

def read (t : Text) : Except Fault Value :=
  match readValue (t.length + 1) (skip t) with
  | .error e => .error e
  | .ok (v, rest) => if (skip rest).isEmpty then .ok v else .error malformed

/-- The value that octets of any Unicode form spell. -/
def readOctets (bs : List UInt8) : Except Fault Value :=
  match Octets.decode? bs with
  | some t => read t
  | none => .error (.platform .undecodableOctets)

def readUtf8 (bs : List UInt8) : Except Fault Value :=
  match Utf8.decode? .refused bs with
  | some t => read t
  | none => .error (.platform .undecodableOctets)

end AuditTrail.Json
