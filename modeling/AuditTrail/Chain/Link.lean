import AuditTrail.Digest.Sha256
import AuditTrail.Entry
import AuditTrail.Value.Canonical

/-!
# Links of the chain

An entry's hash covers the hash of the entry before it, the event type, the time stamp and the
canonical text of the details, with bars between them. The first entry follows sixty-four zeros.
-/

namespace AuditTrail

/-- What the first entry of a chain carries as its previous hash. -/
def genesisHash : Text := List.replicate 64 (CodePoint.ofChar '0')

namespace Link

def shown (v : Value) : Except Fault Text :=
  match v.display? with
  | some t => .ok t
  | none => .error .oversized

/-- The text that an entry's hash covers. -/
def hashInput (previousHash eventType : Value) (createdAt : Instant) (details : Value) :
    Except Fault Text := do
  let body ← Canonical.encode details
  let previous ← shown previousHash
  let event ← shown eventType
  let stamp ← Stamp.write createdAt
  pure (previous ++ lit "|" ++ event ++ lit "|" ++ stamp ++ lit "|" ++ body)

/-- The hash of a text, which has no lone surrogates. -/
def hashText (t : Text) : Except Fault Text :=
  match Utf8.encode? t with
  | some bs => .ok (Sha256.hexDigest bs)
  | none => .error (.platform .unencodableText)

/-- The hash that links an entry to the one before it. -/
def hash (previousHash eventType : Value) (createdAt : Instant) (details : Value) : Except Fault Text := do
  hashText (← hashInput previousHash eventType createdAt details)

end Link

def Entry.recomputed (e : Entry) : Except Fault Text :=
  Link.hash e.previousHash e.eventType e.createdAt e.details

end AuditTrail
