import AuditTrail.Time.Instant

/-!
# Time stamps

The text of an instant in UTC, to the millisecond. It is part of what is hashed, so its shape is
fixed: `2026-02-24T09:55:35.123Z`. A year is written without leading zeros.
-/

namespace AuditTrail.Stamp

def unaware : Fault := .unaware (lit "timestamp")

def dateText (d : Calendar.Date) : Text :=
  Decimal.ofNat d.year ++ lit "-" ++ Decimal.padded 2 d.month ++ lit "-" ++ Decimal.padded 2 d.day

def timeText (wall : Nat) : Text :=
  let seconds := wall / Duration.perSecond
  Decimal.padded 2 (seconds / 3600 % 24) ++ lit ":" ++ Decimal.padded 2 (seconds / 60 % 60) ++ lit ":" ++
    Decimal.padded 2 (seconds % 60) ++ lit "." ++ Decimal.padded 3 (wall % Duration.perSecond / Duration.perMilli)

def ofUtcWall (wall : Nat) : Text :=
  dateText (Calendar.dateOf (wall / Duration.perDay)) ++ lit "T" ++ timeText wall ++ lit "Z"

def write (t : Instant) : Except Fault Text :=
  if t.isAware then t.toUtc.map fun u => ofUtcWall u.wall else .error unaware

end AuditTrail.Stamp
