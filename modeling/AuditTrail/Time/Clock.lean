import AuditTrail.Time.Instant

/-!
# Clocks

A clock gives the next reading and is left in the state after it. The stepping clock gives whole
milliseconds at its start and then steps as it is told; the scripted clock repeats a list of
readings, of which the last one stays for ever.
-/

namespace AuditTrail

/-- A source of instants. -/
inductive Clock where
  /-- Steps from an instant in UTC by so many microseconds. -/
  | stepping (next : Instant) (step : Int)
  /-- Reads what it is told; the last reading stays. -/
  | scripted (next : Except Fault Instant) (later : List (Except Fault Instant))

instance : Inhabited Clock := ⟨.scripted (.error .closed) []⟩

namespace Clock

/-- The step of a clock that is not told any: one millisecond. -/
def defaultStep : Int := Duration.perMilli

/-- A stepping clock, which starts at the millisecond of an aware instant and steps by a duration. -/
def stepFrom (start : Instant) (step : Int) : Except Fault Clock :=
  if !Duration.isPossible step then .error .outOfRange
  else if start.isAware then start.toUtc.map fun t => .stepping t.truncate step
  else .error (.unaware (lit "start"))

/-- A wall clock in UTC, which reads whole milliseconds. -/
def wall (first : Instant) (later : List Instant) : Clock :=
  .scripted (.ok first.truncate) (later.map fun t => .ok t.truncate)

/-- The next reading. The stepping clock takes its following step first, so that it fails one
reading before it would leave the years that have dates. -/
def now : Op Clock Instant
  | .stepping next step =>
    match next.shift step with
    | .ok following => (.ok next, .stepping following step)
    | .error e => (.error e, .stepping next step)
  | .scripted next [] => (next, .scripted next [])
  | .scripted next (r :: later) => (next, .scripted r later)

def readings : Nat → Clock → List (Except Fault Instant)
  | 0, _ => []
  | n + 1, c => c.now.1 :: readings n c.now.2

theorem length_readings (n : Nat) (c : Clock) : (readings n c).length = n := by
  induction n generalizing c with
  | zero => rfl
  | succ n ih => rw [readings, List.length_cons, ih]

theorem stepFrom_eq_ok {start : Instant} {step : Int} {c : Clock} (h : stepFrom start step = .ok c) :
    ∃ u, start.toUtc = .ok u ∧ c = .stepping u.truncate step := by
  rw [stepFrom] at h
  by_cases hp : (!Duration.isPossible step) = true
  · rw [if_pos hp] at h
    exact absurd h (by simp)
  rw [if_neg hp] at h
  by_cases ha : start.isAware = true
  · rw [if_pos ha] at h
    cases hu : start.toUtc with
    | error f =>
      rw [hu] at h
      exact absurd h (by simp [Except.map])
    | ok u =>
      rw [hu] at h
      exact ⟨u, rfl, (Except.ok.inj h).symm⟩
  · rw [if_neg ha] at h
    exact absurd h (by simp)

end Clock

end AuditTrail
