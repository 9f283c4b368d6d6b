import AuditTrail.Decimal.Digits

/-!
# Durations

A duration is an integer of microseconds, within a limit of days. Its text counts whole days, rounded down, and the rest of
the day on a clock.
-/

namespace AuditTrail.Duration

def perMilli : Nat := 1000

def perSecond : Nat := 1000000

def perHour : Nat := 3600 * perSecond

def perDay : Nat := 24 * perHour

/-- Durations have at most this many whole days, forward or backward. -/
def dayLimit : Nat := 999999999

def isPossible (micros : Int) : Bool := (micros / perDay).natAbs ≤ dayLimit

def clockText (micros : Nat) : Text :=
  let seconds := micros / perSecond
  let fraction := micros % perSecond
  Decimal.ofNat (seconds / 3600) ++ lit ":" ++ Decimal.padded 2 (seconds / 60 % 60) ++ lit ":" ++
    Decimal.padded 2 (seconds % 60) ++
    if fraction = 0 then [] else lit "." ++ Decimal.padded 6 fraction

def text (micros : Int) : Text :=
  let days := micros / perDay
  let rest := (micros % perDay).toNat
  let dayText : Text :=
    if days = 0 then []
    else Decimal.ofInt days ++ lit (if days.natAbs = 1 then " day, " else " days, ")
  dayText ++ clockText rest

end AuditTrail.Duration
