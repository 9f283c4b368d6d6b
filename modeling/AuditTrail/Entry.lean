import AuditTrail.Time.StampReader

/-!
# Entries

A request is what a producer hands in, a draft is linked to the chain but has no id yet, and an
entry is what a store holds. Fields are values, because a damaged store may hold anything in them.
A record is the map that a store writes for an entry.
-/

namespace AuditTrail

/-- A request to append one audited event. -/
structure Request where
  eventType : Value
  source : Value
  details : Value
  correlationId : Value

/-- A linked entry without an id. -/
structure Draft where
  eventType : Value
  source : Value
  correlationId : Value
  details : Value
  previousHash : Value
  currentHash : Value
  createdAt : Instant

structure Entry where
  id : Value
  eventType : Value
  source : Value
  correlationId : Value
  details : Value
  previousHash : Value
  currentHash : Value
  createdAt : Instant

namespace Draft

def withId (d : Draft) (id : Value) : Entry :=
  ⟨id, d.eventType, d.source, d.correlationId, d.details, d.previousHash, d.currentHash, d.createdAt⟩

end Draft

namespace Entry

def draft (e : Entry) : Draft :=
  ⟨e.eventType, e.source, e.correlationId, e.details, e.previousHash, e.currentHash, e.createdAt⟩

/-- The fields of an entry's record around its details and its stamp. -/
def recordFields (e : Entry) (details : Value) (stamp : Text) : List (Value × Value) := [
  (.text (lit "id"), e.id),
  (.text (lit "event_type"), e.eventType),
  (.text (lit "module"), e.source),
  (.text (lit "correlation_id"), e.correlationId),
  (.text (lit "details"), details),
  (.text (lit "previous_hash"), e.previousHash),
  (.text (lit "current_hash"), e.currentHash),
  (.text (lit "created_at"), .text stamp)]

def toRecord (e : Entry) : Except Fault Value :=
  (Stamp.write e.createdAt).map fun stamp => .map (e.recordFields e.details stamp)

def required (fields : List (Value × Value)) (name : String) : Except Fault Value :=
  match Value.find? (lit name) fields with
  | some v => .ok v
  | none => .error (.missingKey (.text (lit name)))

def optional (fields : List (Value × Value)) (name : String) : Value :=
  (Value.find? (lit name) fields).getD .null

/-- The instant of a stamp, which must be a text; octets have ends to look at, but not a text's. -/
def readStamp : Value → Except Fault Instant
  | .text t => StampReader.read t
  | .bytes _ => .error .wrongType
  | .object name => if name = lit "bytearray" then .error .wrongType else .error (.platform .noSuchAttribute)
  | _ => .error (.platform .noSuchAttribute)

def ofRecord : Value → Except Fault Entry
  | .map fields => do
    let id ← required fields "id"
    let eventType ← required fields "event_type"
    let source ← required fields "module"
    let previousHash ← required fields "previous_hash"
    let currentHash ← required fields "current_hash"
    let createdAt ← readStamp (← required fields "created_at")
    pure ⟨id, eventType, source, optional fields "correlation_id", optional fields "details",
      previousHash, currentHash, createdAt⟩
  | _ => .error .wrongType

end Entry

end AuditTrail
