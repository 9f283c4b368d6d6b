import AuditTrail.Entry

/-!
# The storage contract

A store over a world of type `W` creates entries and finds them in the order of their instants.
Every operation returns the world it leaves behind, because reading may use up staged failures and
creating uses up ids.
-/

namespace AuditTrail

/-- A source of ids, of which some are taken. -/
structure IdSource where
  nth : Nat → Text
  taken : Nat

namespace IdSource

/-- Given ids first, and then the numbers from one on, each as 32 hexadecimal digits. -/
def ofNumbers (given : List Nat) : IdSource :=
  ⟨fun n => Text.hex 32 ((given[n]?).getD (n - given.length + 1)), 0⟩

instance : Inhabited IdSource := ⟨ofNumbers []⟩

def next (s : IdSource) : Text := s.nth s.taken

def take (s : IdSource) : IdSource := { s with taken := s.taken + 1 }

theorem length_next_ofNumbers (given : List Nat) : (ofNumbers given).next.length = 32 := Text.length_hex 32 _

end IdSource

/-- What the appender and the verifier need of a store. -/
structure Store (W : Type) where
  create : Draft → Op W Entry
  findLast : Op W (Option Entry)
  findJustBefore : Instant → Op W (Option Entry)
  /-- The entries between two instants, ends included. -/
  findBetween : Instant → Instant → Op W (List Entry)
  all : Op W (List Entry)

namespace Store

def findByEventType {W : Type} (s : Store W) (eventType : Value) (start finish : Option Instant) :
    Op W (List Entry) := fun w =>
  let found :=
    match start, finish with
    | some a, some b => s.findBetween a b w
    | _, _ => s.all w
  (found.1.map fun es => es.filter fun e => e.eventType.same eventType, found.2)

def within {V W : Type} (s : Store V) (get : W → V) (set : V → W → W) : Store W :=
  let lift {α : Type} (op : Op V α) : Op W α := fun w =>
    let out := op (get w)
    (out.1, set out.2 w)
  { create := fun d => lift (s.create d)
    findLast := lift s.findLast
    findJustBefore := fun t => lift (s.findJustBefore t)
    findBetween := fun a b => lift (s.findBetween a b)
    all := lift s.all }

end Store

end AuditTrail
