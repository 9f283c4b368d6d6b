import AuditTrail.Text

/-!
# Metrics

Counters of appends, failures, durations and broken chains. Nothing is counted until the counters
have been set up. An increment is seen on its own label only (`get?_increment_self`,
`get?_increment_of_ne`).
-/

namespace AuditTrail

/-- Counts by label, in the order in which the labels came first. -/
abbrev Counts := List (Text × Nat)

namespace Counts

def increment (label : Text) : Counts → Counts
  | [] => [(label, 1)]
  | (l, n) :: rest => if l = label then (l, n + 1) :: rest else (l, n) :: increment label rest

def get? (label : Text) (c : Counts) : Option Nat := (c.find? fun e => e.1 == label).map (·.2)

private theorem get?_cons_self (label : Text) (n : Nat) (c : Counts) : get? label ((label, n) :: c) = some n := by
  simp [get?]

private theorem get?_cons_of_ne {label other : Text} (h : other ≠ label) (n : Nat) (c : Counts) :
    get? label ((other, n) :: c) = get? label c := by
  simp [get?, h]

/-- An increment adds one to its label, which counts from zero. -/
theorem get?_increment_self (label : Text) (c : Counts) :
    get? label (increment label c) = some ((get? label c).getD 0 + 1) := by
  induction c with
  | nil => exact get?_cons_self label 1 []
  | cons e rest ih =>
    obtain ⟨l, n⟩ := e
    rw [increment]
    by_cases h : l = label
    · rw [if_pos h, h, get?_cons_self, get?_cons_self, Option.getD_some]
    · rw [if_neg h, get?_cons_of_ne h, get?_cons_of_ne h, ih]

theorem get?_increment_of_ne {label other : Text} (h : other ≠ label) (c : Counts) :
    get? label (increment other c) = get? label c := by
  induction c with
  | nil => exact get?_cons_of_ne h 1 []
  | cons e rest ih =>
    obtain ⟨l, n⟩ := e
    rw [increment]
    by_cases hl : l = other
    · rw [if_pos hl, get?_cons_of_ne (hl ▸ h), get?_cons_of_ne (hl ▸ h)]
    · rw [if_neg hl]
      by_cases he : l = label
      · rw [he, get?_cons_self, get?_cons_self]
      · rw [get?_cons_of_ne he, get?_cons_of_ne he, ih]

end Counts

/-- The counters, and whether they have been set up. Of the library that keeps them it is assumed that every label is
taken, that no increment is lost or fails, and that nobody else counts (`Counts.get?_increment_self`,
`Counts.get?_increment_of_ne`). -/
structure Metrics where
  running : Bool
  appends : Counts
  failures : Counts
  appendDurations : Nat
  verifyDurations : Nat
  chainsBroken : Nat

namespace Metrics

def off : Metrics := ⟨false, [], [], 0, 0, 0⟩

def countAppend (label : Text) (m : Metrics) : Metrics :=
  if m.running then { m with appends := m.appends.increment label } else m

def countFailure (label : Text) (m : Metrics) : Metrics :=
  if m.running then { m with failures := m.failures.increment label } else m

def countAppendDuration (timed : Bool) (m : Metrics) : Metrics :=
  if timed then { m with appendDurations := m.appendDurations + 1 } else m

def countVerifyDuration (timed : Bool) (m : Metrics) : Metrics :=
  if timed then { m with verifyDurations := m.verifyDurations + 1 } else m

def countBroken (m : Metrics) : Metrics :=
  if m.running then { m with chainsBroken := m.chainsBroken + 1 } else m

end Metrics

end AuditTrail
