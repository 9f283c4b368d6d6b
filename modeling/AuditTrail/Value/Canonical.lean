import AuditTrail.Fault
import AuditTrail.Text.Utf8

/-!
# Canonical text

Every hash covers the canonical text of an entry's details, which is JSON without blanks. Maps
are written in the order of their encoded keys, so that the order of their fields does not matter;
tuples are written like lists; a number is written the same whether it is an integer or a whole
floating point number. A value outside the JSON values has no canonical text.

A value and the same value with its tuples turned to lists have one text (`encode_listed`).
-/

namespace AuditTrail

/-- Canonical numbers are plain from a millionth up to a sextillion. -/
def canonicalStyle : DecimalStyle := ⟨-6, 21, false, 1⟩

namespace Canonical

def escape (c : CodePoint) : Text :=
  match c.val with
  | 0x22 => lit "\\\""
  | 0x5C => lit "\\\\"
  | 0x0A => lit "\\n"
  | 0x0D => lit "\\r"
  | 0x09 => lit "\\t"
  | 0x08 => lit "\\b"
  | 0x0C => lit "\\f"
  | n => if n < 0x20 then lit "\\u" ++ Text.hex 4 n else [c]

def quote (t : Text) : Text := lit "\"" ++ t.flatMap escape ++ lit "\""

def encodeText (t : Text) : Except Fault Text :=
  if t.isWellFormed then .ok (quote t) else .error (.encoding (.loneSurrogate t))

def encodeInt (i : Int) : Except Fault Text :=
  if Decimal.isOversized i then .error .oversized else .ok (Decimal.ofInt i)

/-- The canonical text of a floating point number; both zeros are written alike. -/
def encodeFloat (x : Binary64) : Except Fault Text :=
  if !x.isFinite then .error (.encoding (.nonFinite x))
  else if x.isZero then .ok (lit "0")
  else .ok ((if x.isNegative then lit "-" else []) ++ x.shortest.layout canonicalStyle)

def encodeKey : Value → Except Fault Text
  | .text t => encodeText t
  | k =>
    match k.literal? with
    | some shown => .error (.encoding (.keyNotText k.typeName shown))
    | none => .error .oversized

def sortFields {α : Type} (fs : List (Text × α)) : List (Text × α) :=
  fs.mergeSort fun f g => Text.le f.1 g.1

def writeField (f : Text × Except Fault Text) : Except Fault Text :=
  f.2.map fun t => f.1 ++ lit ":" ++ t

mutual
/-- The canonical text of a value. -/
def encode : Value → Except Fault Text
  | .null => .ok (lit "null")
  | .bool b => .ok (lit (if b then "true" else "false"))
  | .int i => encodeInt i
  | .float x => encodeFloat x
  | .text t => encodeText t
  | .list xs => (encodeItems xs).map fun ts => lit "[" ++ Text.join (lit ",") ts ++ lit "]"
  | .tuple xs => (encodeItems xs).map fun ts => lit "[" ++ Text.join (lit ",") ts ++ lit "]"
  | .map fs => do
    let keys ← fs.mapM fun f => encodeKey f.1
    let ts ← (sortFields (keys.zip (encodeValues fs))).mapM writeField
    pure (lit "\x7b" ++ Text.join (lit ",") ts ++ lit "\x7d")
  | .bytes bs => .error (.encoding (.unsupported (Value.bytes bs).typeName))
  | .object name => .error (.encoding (.unsupported name))
termination_by structural v => v

def encodeItems : List Value → Except Fault (List Text)
  | [] => .ok []
  | x :: xs => do
    let t ← encode x
    let ts ← encodeItems xs
    pure (t :: ts)
termination_by structural xs => xs

def encodeValues : List (Value × Value) → List (Except Fault Text)
  | [] => []
  | f :: fs => encodeValue f :: encodeValues fs
termination_by structural fs => fs

def encodeValue : Value × Value → Except Fault Text
  | (_, v) => encode v
termination_by structural f => f
end

def encodeBytes (v : Value) : Except Fault (List UInt8) := (encode v).map Utf8.encode

mutual
/-- The value with every tuple turned into a list. -/
def listed : Value → Value
  | .list xs => .list (listedItems xs)
  | .tuple xs => .list (listedItems xs)
  | .map fs => .map (listedFields fs)
  | v => v
termination_by structural v => v

def listedItems : List Value → List Value
  | [] => []
  | x :: xs => listed x :: listedItems xs
termination_by structural xs => xs

def listedFields : List (Value × Value) → List (Value × Value)
  | [] => []
  | f :: fs => listedField f :: listedFields fs
termination_by structural fs => fs

def listedField : Value × Value → Value × Value
  | (k, v) => (k, listed v)
termination_by structural f => f
end

/-- The stored form of a value that has a canonical text. -/
def toJson (v : Value) : Except Fault Value := (encode v).map fun _ => listed v

mutual
theorem listed_listed : ∀ v : Value, listed (listed v) = listed v
  | .null | .bool _ | .int _ | .float _ | .text _ | .bytes _ | .object _ => by simp only [listed]
  | .list xs | .tuple xs => by simp only [listed, listedItems_listedItems xs]
  | .map fs => by simp only [listed, listedFields_listedFields fs]

private theorem listedItems_listedItems : ∀ xs : List Value, listedItems (listedItems xs) = listedItems xs
  | [] => by simp only [listedItems]
  | x :: xs => by simp only [listedItems, listed_listed x, listedItems_listedItems xs]

private theorem listedFields_listedFields : ∀ fs : List (Value × Value),
    listedFields (listedFields fs) = listedFields fs
  | [] => by simp only [listedFields]
  | (k, v) :: fs => by simp only [listedFields, listedField, listed_listed v, listedFields_listedFields fs]
end

theorem map_fst_listedFields (fs : List (Value × Value)) :
    (listedFields fs).map Prod.fst = fs.map Prod.fst := by
  induction fs with
  | nil => rw [listedFields]
  | cons f fs ih =>
    obtain ⟨k, v⟩ := f
    rw [listedFields, listedField, List.map_cons, List.map_cons, ih]

private theorem mapM_encodeKey_listedFields (fs : List (Value × Value)) :
    ((listedFields fs).mapM fun f => encodeKey f.1) = fs.mapM fun f => encodeKey f.1 := by
  induction fs with
  | nil => rw [listedFields]
  | cons f fs ih =>
    obtain ⟨k, v⟩ := f
    rw [listedFields, listedField, List.mapM_cons, List.mapM_cons, ih]

mutual
/-- Turning tuples into lists leaves the canonical text as it was. -/
theorem encode_listed : ∀ v : Value, encode (listed v) = encode v
  | .null | .bool _ | .int _ | .float _ | .text _ | .bytes _ | .object _ => by simp only [listed]
  | .list xs | .tuple xs => by simp only [listed, encode, encodeItems_listedItems xs]
  | .map fs => by
    simp only [listed, encode, encodeValues_listedFields fs, mapM_encodeKey_listedFields fs]

private theorem encodeItems_listedItems : ∀ xs : List Value, encodeItems (listedItems xs) = encodeItems xs
  | [] => by simp only [listedItems]
  | x :: xs => by simp only [listedItems, encodeItems, encode_listed x, encodeItems_listedItems xs]

private theorem encodeValues_listedFields : ∀ fs : List (Value × Value),
    encodeValues (listedFields fs) = encodeValues fs
  | [] => by simp only [listedFields]
  | (k, v) :: fs => by
    simp only [listedFields, listedField, encodeValues, encodeValue, encode_listed v,
      encodeValues_listedFields fs]
end

end Canonical

end AuditTrail
