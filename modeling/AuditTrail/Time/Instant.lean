import AuditTrail.Fault
import AuditTrail.Time.Calendar

/-!
# Instants

An instant is a reading of a wall clock in the years 1 to 9999, to the microsecond, with the
clock's offset from UTC if it is known. Aware instants are ordered by their moment in UTC, readings
without an offset by themselves, and one of each kind cannot be compared. A change of
offset keeps the moment (`moment_of_toUtc`), and truncation leaves whole milliseconds
(`isWholeMilli_truncate`, `truncate_of_isWholeMilli`).
-/

namespace AuditTrail

/-- Microseconds from the start of the year 1 to the end of the year 9999. -/
def wallLimit : Nat := Calendar.dayLimit * Duration.perDay

/-- A reading of a wall clock, with its offset from UTC if it is known. The offset is fixed for each instant:
there are no zones here whose offset varies with the time, and of which two instants in one zone would be compared by
their wall readings alone. -/
structure Instant where
  wall : Nat
  offset : Option Int
  inRange : wall < wallLimit
deriving DecidableEq

namespace Instant

/-- The instant of a wall reading, if the reading lies in the years 1 to 9999. -/
def ofWall? (wall : Int) (offset : Option Int) : Option Instant :=
  if h : 0 ≤ wall ∧ wall.toNat < wallLimit then some ⟨wall.toNat, offset, h.2⟩ else none

/-- The instant of a wall reading, or a fault outside the years 1 to 9999. -/
def ofWall (wall : Int) (offset : Option Int) : Except Fault Instant :=
  match ofWall? wall offset with
  | some t => .ok t
  | none => .error .outOfRange

def isAware (t : Instant) : Bool := t.offset.isSome

/-- Microseconds in UTC since the start of the year 1; the wall reading if the offset is unknown. -/
def moment (t : Instant) : Int := t.wall - t.offset.getD 0

/-- The same moment in UTC; an unknown offset is taken as that of the wall. -/
def toUtc (t : Instant) : Except Fault Instant := ofWall t.moment (some 0)

/-- The instant some microseconds later on the same wall. -/
def shift (t : Instant) (micros : Int) : Except Fault Instant := ofWall (t.wall + micros) t.offset

def truncate (t : Instant) : Instant :=
  ⟨t.wall - t.wall % Duration.perMilli, t.offset, Nat.lt_of_le_of_lt (Nat.sub_le _ _) t.inRange⟩

def isWholeMilli (t : Instant) : Bool := t.wall % Duration.perMilli == 0

def comparable (s t : Instant) : Bool := s.isAware == t.isAware

def before (s t : Instant) : Except Fault Bool :=
  if s.comparable t then .ok (s.moment < t.moment) else .error .wrongType

def notAfter (s t : Instant) : Except Fault Bool :=
  if s.comparable t then .ok (s.moment ≤ t.moment) else .error .wrongType

/-- An instant lies between two others, ends included. -/
def within (start finish t : Instant) : Except Fault Bool := do
  if ← start.notAfter t then t.notAfter finish else pure false

/-- Microseconds from the start of the year 1 to the start of 1970. -/
def epochWall : Nat := 719162 * Duration.perDay

/-- The moment of an instant in UTC. Without an offset the wall is taken as UTC, but the first day
of the year 1 has no day before it and is refused. -/
def utcMoment (t : Instant) : Except Fault Int :=
  if t.isAware then t.toUtc.map fun u => (u.wall : Int)
  else if t.wall < Duration.perDay then .error (.platform .malformedValue)
  else .ok t.wall

/-- Milliseconds since the start of 1970, rounded down. -/
def epochMillis (t : Instant) : Except Fault Int :=
  t.utcMoment.map fun m => (m - epochWall) / Duration.perMilli

theorem ofWall_eq_ok_iff {wall : Int} {offset : Option Int} {t : Instant} :
    ofWall wall offset = .ok t ↔ (t.wall : Int) = wall ∧ t.offset = offset := by
  rw [ofWall, ofWall?]
  by_cases h : 0 ≤ wall ∧ wall.toNat < wallLimit
  · rw [dif_pos h]
    obtain ⟨w, o, hw⟩ := t
    simp only [Except.ok.injEq, mk.injEq]
    exact ⟨fun e => ⟨by omega, e.2.symm⟩, fun e => ⟨by omega, e.2.symm⟩⟩
  · rw [dif_neg h]
    have hw := t.inRange
    exact ⟨fun e => absurd e (by simp), fun e => absurd ⟨by omega, by omega⟩ h⟩

theorem isAware_of_offset {t : Instant} {micros : Int} (h : t.offset = some micros) : t.isAware = true := by
  rw [isAware, h]
  rfl

theorem toUtc_of_offset {u : Instant} (h : u.offset = some 0) : u.toUtc = .ok u := by
  rw [toUtc, ofWall_eq_ok_iff, moment, h]
  exact ⟨(Int.sub_zero _).symm, rfl⟩

theorem offset_of_toUtc {t u : Instant} (h : t.toUtc = .ok u) : u.offset = some 0 := (ofWall_eq_ok_iff.mp h).2

theorem moment_of_toUtc {t u : Instant} (h : t.toUtc = .ok u) : u.moment = t.moment := by
  rw [toUtc, ofWall_eq_ok_iff] at h
  rw [moment, h.2, Option.getD_some, Int.sub_zero, h.1]

theorem moment_of_shift {t u : Instant} {micros : Int} (h : t.shift micros = .ok u) :
    u.moment = t.moment + micros := by
  rw [shift, ofWall_eq_ok_iff] at h
  rw [moment, moment, h.1, h.2]
  omega

theorem wall_truncate (t : Instant) : t.truncate.wall = t.wall - t.wall % Duration.perMilli := rfl

theorem offset_truncate (t : Instant) : t.truncate.offset = t.offset := rfl

theorem isWholeMilli_truncate (t : Instant) : t.truncate.isWholeMilli = true := by
  have hd : t.truncate.wall = Duration.perMilli * (t.wall / Duration.perMilli) := by
    have h := Nat.mod_add_div t.wall Duration.perMilli
    rw [wall_truncate]
    omega
  rw [isWholeMilli, hd, Nat.mul_mod_right, beq_self_eq_true]

theorem truncate_of_isWholeMilli {t : Instant} (h : t.isWholeMilli = true) : t.truncate = t := by
  obtain ⟨w, o, hw⟩ := t
  rw [isWholeMilli, beq_iff_eq] at h
  simp only [truncate, h, Nat.sub_zero]

theorem truncate_truncate (t : Instant) : t.truncate.truncate = t.truncate :=
  truncate_of_isWholeMilli (isWholeMilli_truncate t)

end Instant

end AuditTrail
