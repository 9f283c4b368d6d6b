import AuditTrail.Fault

/-!
# Reports of a verification

A report of an intact chain counts the entries walked; a report of a break counts up to the
offending entry and tells what was expected there. What is not known is null. Fields are values,
because a report may repeat what a damaged store holds.
-/

namespace AuditTrail

structure Report where
  valid : Value
  entriesChecked : Value
  brokenAtId : Value
  brokenAtTimestamp : Value
  expectedHash : Value
  actualHash : Value

namespace Report

def intact (count : Nat) : Report := ⟨.bool true, .int count, .null, .null, .null, .null⟩

def isIntact (r : Report) : Bool := r.valid.isFilled

/-- The verdict and the count, and then those other fields that are known. -/
def fields (r : Report) : List (Text × Value) :=
  [(lit "valid", r.valid), (lit "entriesChecked", r.entriesChecked)] ++
    [(lit "brokenAtId", r.brokenAtId), (lit "brokenAtTimestamp", r.brokenAtTimestamp),
      (lit "expectedHash", r.expectedHash), (lit "actualHash", r.actualHash)].filter fun f => !f.2.isNull

/-- The wording of a break, unless a value in it has none. -/
def wording? (r : Report) : Option Text := do
  let id ← r.brokenAtId.display?
  let stamp ← r.brokenAtTimestamp.display?
  let expected ← r.expectedHash.display?
  let actual ← r.actualHash.display?
  pure (lit "hash chain broken at entry " ++ id ++ lit " (" ++ stamp ++ lit "): expected " ++ expected ++
    lit ", got " ++ actual)

/-- The report itself, or the fault of a chain that is not known to be intact. -/
def orFault (r : Report) : Except Fault Report :=
  if r.isIntact then .ok r
  else match r.wording? with
    | some text => .error (.integrity text)
    | none => .error .oversized

end Report

end AuditTrail
