import AuditTrail.Decimal.Binary64

/-!
# Values

A value is what an entry's fields and details may hold. The JSON values are null, booleans,
integers, floating point numbers, texts, lists, and maps with text keys; tuples are sequences that
encode like lists, and octets and opaque objects are held but never encoded. A map keeps its
fields in the order in which their keys came first, and a key put is a key found
(`find?_put_self`, `find?_put_of_ne`).
-/

namespace AuditTrail

/-- A dynamically typed value. -/
inductive Value where
  | null
  | bool (b : Bool)
  | int (i : Int)
  | float (x : Binary64)
  | text (t : Text)
  | list (xs : List Value)
  | tuple (xs : List Value)
  | map (fields : List (Value × Value))
  | bytes (bs : List UInt8)
  | object (typeName : Text)
deriving Inhabited

namespace Value

instance : Coe Text Value := ⟨Value.text⟩

def ofString (s : String) : Value := .text (lit s)

def isNull : Value → Bool
  | .null => true
  | _ => false

def isText : Value → Bool
  | .text _ => true
  | _ => false

def nonNull? : Value → Option Value
  | .null => none
  | v => some v

/-- Neither null nor false nor zero nor empty. -/
def isFilled : Value → Bool
  | .null => false
  | .bool b => b
  | .int i => i != 0
  | .float x => !x.isZero
  | .text t => !t.isEmpty
  | .list xs => !xs.isEmpty
  | .tuple xs => !xs.isEmpty
  | .map fs => !fs.isEmpty
  | .bytes bs => !bs.isEmpty
  | .object _ => true

def typeName : Value → Text
  | .null => lit "NoneType"
  | .bool _ => lit "bool"
  | .int _ => lit "int"
  | .float _ => lit "float"
  | .text _ => lit "str"
  | .list _ => lit "list"
  | .tuple _ => lit "tuple"
  | .map _ => lit "dict"
  | .bytes _ => lit "bytes"
  | .object name => name

def integer? : Value → Option Int
  | .bool b => some (if b then 1 else 0)
  | .int i => some i
  | _ => none

/-- Numerical equality of booleans, integers and floating point numbers. -/
def sameNumber (a b : Value) : Bool :=
  match a.integer?, b.integer?, a, b with
  | some i, some j, _, _ => i == j
  | some i, none, _, .float y => y.isInteger i
  | none, some j, .float x, _ => x.isInteger j
  | none, none, .float x, .float y => x.sameNumber y
  | _, _, _, _ => false

/-- Floating point numbers with the same bits. A NaN equals no number, yet it has its own bits. -/
def sameBits : Value → Value → Bool
  | .float x, .float y => x.bits == y.bits
  | _, _ => false

/-- The types whose objects equal no other object. -/
def distinctTypes : List Text := ["object", "generator", "coroutine", "module", "lock"].map lit

/-- The types whose objects cannot be copied. -/
def uncopyableTypes : List Text := ["generator", "coroutine", "memoryview", "module", "lock"].map lit

mutual
/-- Equality of values: numbers by their value, maps whatever the order of their fields. Inside a
collection a NaN equals the NaN with the same bits; by itself it equals nothing. -/
def same : Value → Value → Bool
  | .null, b => b.isNull
  | .text s, .text t => s == t
  | .list xs, .list ys => sameAll xs ys
  | .tuple xs, .tuple ys => sameAll xs ys
  | .map fs, .map gs => fs.length == gs.length && sameFields fs gs
  | .bytes s, .bytes t => s == t
  | .object s, .object t => s == t && !distinctTypes.contains s
  | a, b => sameNumber a b
termination_by structural a => a

def sameAll : List Value → List Value → Bool
  | [], ys => ys.isEmpty
  | x :: xs, y :: ys => (sameBits x y || same x y) && sameAll xs ys
  | _ :: _, [] => false
termination_by structural xs => xs

def sameFields : List (Value × Value) → List (Value × Value) → Bool
  | [], _ => true
  | f :: fs, gs => gs.any (sameField f) && sameFields fs gs
termination_by structural fs => fs

def sameField : Value × Value → Value × Value → Bool
  | (k, v), g => (sameBits k g.1 || same k g.1) && (sameBits v g.2 || same v g.2)
termination_by structural f => f
end

mutual
/-- The value can be copied with all that it holds. -/
def isCopyable : Value → Bool
  | .list xs => areCopyable xs
  | .tuple xs => areCopyable xs
  | .map fs => fieldsAreCopyable fs
  | .object name => !uncopyableTypes.contains name
  | _ => true
termination_by structural v => v

def areCopyable : List Value → Bool
  | [] => true
  | x :: xs => isCopyable x && areCopyable xs
termination_by structural xs => xs

def fieldsAreCopyable : List (Value × Value) → Bool
  | [] => true
  | f :: fs => fieldIsCopyable f && fieldsAreCopyable fs
termination_by structural fs => fs

def fieldIsCopyable : Value × Value → Bool
  | (k, v) => isCopyable k && isCopyable v
termination_by structural f => f
end

/-- The fields with a value put under a key; an equal key keeps its place. -/
def put (k v : Value) : List (Value × Value) → List (Value × Value)
  | [] => [(k, v)]
  | (k', v') :: fs => if k'.same k then (k', v) :: fs else (k', v') :: put k v fs

theorem same_text_iff {v : Value} {t : Text} : v.same (.text t) = true ↔ v = .text t := by
  cases v with
  | text s => simp [same]
  | null => simp [same, isNull]
  | bool b => simp [same, sameNumber, integer?]
  | int i => simp [same, sameNumber, integer?]
  | float x => simp [same, sameNumber, integer?]
  | list xs => simp [same, sameNumber, integer?]
  | tuple xs => simp [same, sameNumber, integer?]
  | map fs => simp [same, sameNumber, integer?]
  | bytes bs => simp [same, sameNumber, integer?]
  | object n => simp [same, sameNumber, integer?]

theorem text_same_iff {v : Value} {t : Text} : (Value.text t).same v = true ↔ v = .text t := by
  cases v with
  | text s =>
    simp only [same, beq_iff_eq, Value.text.injEq]
    exact eq_comm
  | null => simp [same, sameNumber, integer?]
  | bool b => simp [same, sameNumber, integer?]
  | int i => simp [same, sameNumber, integer?]
  | float x => simp [same, sameNumber, integer?]
  | list xs => simp [same, sameNumber, integer?]
  | tuple xs => simp [same, sameNumber, integer?]
  | map fs => simp [same, sameNumber, integer?]
  | bytes bs => simp [same, sameNumber, integer?]
  | object n => simp [same, sameNumber, integer?]

theorem exists_of_isText {v : Value} (h : v.isText = true) : ∃ t, v = .text t := by
  cases v with
  | text t => exact ⟨t, rfl⟩
  | _ => simp [isText] at h

/-- The map of a sequence of fields, in which a later value of a key replaces an earlier one. -/
def ofFields (fs : List (Value × Value)) : Value := .map (fs.foldl (fun done f => put f.1 f.2 done) [])

def find? (key : Text) : List (Value × Value) → Option Value
  | [] => none
  | (.text k, v) :: fs => if k = key then some v else find? key fs
  | _ :: fs => find? key fs

private theorem find?_cons_self (key : Text) (v : Value) (fs : List (Value × Value)) :
    find? key ((.text key, v) :: fs) = some v := by
  rw [find?, if_pos rfl]

private theorem find?_cons_of_ne {key : Text} {k : Value} (h : k ≠ .text key) (v : Value) (fs : List (Value × Value)) :
    find? key ((k, v) :: fs) = find? key fs := by
  cases k with
  | text t =>
    have ht : t ≠ key := fun e => h (congrArg Value.text e)
    rw [find?, if_neg ht]
  | null => rfl
  | bool b => rfl
  | int i => rfl
  | float x => rfl
  | list xs => rfl
  | tuple xs => rfl
  | map gs => rfl
  | bytes bs => rfl
  | object n => rfl

theorem find?_put_self (key : Text) (v : Value) (fs : List (Value × Value)) :
    find? key (put (.text key) v fs) = some v := by
  induction fs with
  | nil => exact find?_cons_self key v []
  | cons f fs ih =>
    obtain ⟨k, w⟩ := f
    rw [put]
    by_cases hk : k.same (.text key) = true
    · rw [if_pos hk, same_text_iff.1 hk, find?_cons_self]
    · have hne : k ≠ .text key := fun e => hk (same_text_iff.2 e)
      rw [if_neg hk, find?_cons_of_ne hne, ih]

/-- Putting a value under one key leaves the others as they were. -/
theorem find?_put_of_ne {key other : Text} (h : other ≠ key) (v : Value) (fs : List (Value × Value)) :
    find? key (put (.text other) v fs) = find? key fs := by
  have ho : Value.text other ≠ .text key := fun e => h (Value.text.inj e)
  induction fs with
  | nil => exact find?_cons_of_ne ho v []
  | cons f fs ih =>
    obtain ⟨k, w⟩ := f
    rw [put]
    by_cases hk : k.same (.text other) = true
    · rw [if_pos hk, same_text_iff.1 hk, find?_cons_of_ne ho, find?_cons_of_ne ho]
    · rw [if_neg hk]
      by_cases he : k = .text key
      · rw [he, find?_cons_self, find?_cons_self]
      · rw [find?_cons_of_ne he, find?_cons_of_ne he, ih]

end Value

end AuditTrail
