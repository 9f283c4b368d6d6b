import AuditTrail.Chain.Link
import AuditTrail.Chain.Report
import AuditTrail.Storage.Store
import AuditTrail.Watch.Watch

/-!
# Verifying a chain

A range of entries is walked in order. Each entry must follow the hash of the entry before it (the
entry just before the range, or the genesis hash), and its own hash must be the one its fields
give. The walk reports the first entry that breaks one of the two.
-/

namespace AuditTrail

namespace Chain

def broken (position : Nat) (e : Entry) (expected actual : Value) : Except Fault Report :=
  (Stamp.write e.createdAt).map fun stamp =>
    ⟨.bool false, .int position, e.id, .text stamp, expected, actual⟩

def follows (expected : Value) (e : Entry) : Bool := e.previousHash.same expected

/-- Walks entries from a position on, the first of which must follow an expected hash. -/
def walk (position : Nat) (expected : Value) : List Entry → Except Fault Report
  | [] => .ok (.intact (position - 1))
  | e :: rest =>
    if !follows expected e then broken position e expected e.previousHash
    else
      match e.recomputed with
      | .error (.encoding _) => broken position e .null e.currentHash
      | .error f => .error f
      | .ok hash =>
        if (Value.text hash).same e.currentHash then walk (position + 1) e.currentHash rest
        else broken position e (.text hash) e.currentHash

/-- The hash that a range's first entry must follow. -/
def expectedAfter : Option Entry → Value
  | some e => e.currentHash
  | none => .text genesisHash

end Chain

namespace Verifier

/-- Refuses a range that is not between two aware instants in order, or is too wide. -/
def checkRange (limit : Option Int) (start finish : Instant) : Except Fault Unit :=
  if !start.isAware || !finish.isAware then .error (.range .unaware)
  else if finish.moment < start.moment then do
    let a ← Stamp.write start
    let b ← Stamp.write finish
    .error (.range (.reversed a b))
  else
    match limit with
    | some most =>
      let span := finish.moment - start.moment
      if most < span then .error (.range (.tooWide span most)) else .ok ()
    | none => .ok ()

variable {W : Type}

/-- Reads the entries of a range and the one before them, and walks them; no report means that the
range is empty. -/
def examine (store : Store W) (start finish : Instant) : Op W (Option Report) := fun w =>
  match store.findBetween start finish w with
  | (.error f, w) => (.error f, w)
  | (.ok [], w) => (.ok none, w)
  | (.ok (e :: rest), w) =>
    match store.findJustBefore e.createdAt w with
    | (.error f, w) => (.error f, w)
    | (.ok before, w) => ((Chain.walk 1 (Chain.expectedAfter before) (e :: rest)).map some, w)

def intactLine (r : Report) (start finish : Text) : LogLine :=
  ⟨.verifier, .info, lit "Audit chain verified", [
    (lit "entries_checked", r.entriesChecked),
    (lit "range_start", .text start),
    (lit "range_end", .text finish)]⟩

def brokenLine (r : Report) : LogLine :=
  ⟨.verifier, .error, lit "Audit hash chain integrity check failed", [
    (lit "code", .int FaultCode.chainBroken.number),
    (lit "broken_at_id", r.brokenAtId),
    (lit "broken_at_timestamp", r.brokenAtTimestamp),
    (lit "expected_hash", r.expectedHash),
    (lit "actual_hash", r.actualHash)]⟩

/-- A value in a notice: what is empty becomes the empty text. -/
def noticed (v : Value) : Value := if v.isFilled then v else .text []

def reportBroken (r : Report) (w : Watch) : Watch :=
  ((w.count (·.countBroken)).add (brokenLine r)).notify .verifier
    (lit "Failed to emit chain broken notification")
    (.chainBroken (noticed r.brokenAtId) (noticed r.expectedHash) (noticed r.actualHash))

def conclude (start finish : Instant) (r : Report) (w : Watch) : Except Fault Report × Watch :=
  if r.isIntact then
    match Stamp.write start, Stamp.write finish with
    | .error f, _ => (.error f, w)
    | .ok _, .error f => (.error f, w)
    | .ok a, .ok b => (.ok r, w.add (intactLine r a b))
  else (.ok r, reportBroken r w)

/-- Proves or disproves that the entries between two instants form a chain. -/
def verify (store : Store W) (limit : Option Int) (start finish : Instant) (world : W) (watch : Watch) :
    Except Fault Report × W × Watch :=
  match checkRange limit start finish with
  | .error f => (.error f, world, watch)
  | .ok _ =>
    let (found, world) := examine store start finish world
    let watch := watch.count (·.countVerifyDuration watch.metrics.running)
    match found with
    | .error f => (.error f, world, watch)
    | .ok none => (.ok (.intact 0), world, watch)
    | .ok (some r) =>
      let out := conclude start finish r watch
      (out.1, world, out.2)

end Verifier

end AuditTrail
