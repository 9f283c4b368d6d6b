import AuditTrail.Time.Stamp

/-!
# Reading time stamps

A stamp is a date, one separator of any kind, a time and an offset; only the date is needed. Dates
are calendar or week dates, with or without hyphens. Times have hours, minutes and seconds, with
or without colons, and a fraction after any of them, of which six digits count. What stands
directly before an offset is not looked at after a component or six fraction digits. A null
character counts as the end of what is read.
-/

namespace AuditTrail.StampReader

def isDigit (c : CodePoint) : Bool := c.digit?.isSome

/-- A number of exactly so many digits, and what follows it. -/
def digits? : Nat → Text → Option (Nat × Text)
  | n, t =>
    let ds := (t.take n).filterMap CodePoint.digit?
    if ds.length = n then some (Decimal.value ds, t.drop n) else none

/-- Nothing, or a null character. -/
def atEnd : Text → Bool
  | [] => true
  | c :: _ => c.val == 0

def startsWith (n : Nat) : Text → Bool
  | c :: _ => c.val == n
  | [] => false

def dateLength (t : Text) : Nat :=
  let at? (i : Nat) : Option Nat := (t[i]?).map (·.val)
  let digitAt (i : Nat) : Bool := ((t[i]?).map isDigit).getD false
  if t.length = 7 then 7
  else if at? 4 = some 45 then
    if at? 5 = some 87 then
      if at? 8 = some 45 then (if digitAt 10 then 8 else 10) else 8
    else 10
  else if at? 4 = some 87 then
    let stop := 7 + ((t.drop 7).takeWhile isDigit).length
    if stop < 9 then stop else if stop % 2 = 0 then 7 else 8
  else 8

def weekDay? (year : Nat) (hyphens : Bool) (t : Text) : Option Nat := do
  let (week, rest) ← digits? 2 t
  match rest with
  | [] => Calendar.ofWeek? year week 1
  | c :: after =>
    if hyphens && c.val != 45 then none
    else
      let (weekday, _) ← digits? 1 (if hyphens then after else rest)
      Calendar.ofWeek? year week weekday

def monthDay? (year : Nat) (hyphens : Bool) (t : Text) : Option Nat := do
  let (month, rest) ← digits? 2 t
  if hyphens && !startsWith 45 rest then none
  else
    let (day, _) ← digits? 2 (if hyphens then rest.drop 1 else rest)
    let date : Calendar.Date := ⟨year, month, day⟩
    if date.isValid then some date.days else none

def date? (t : Text) : Option Nat := do
  let (year, rest) ← digits? 4 t
  let hyphens := startsWith 45 rest
  let rest := if hyphens then rest.drop 1 else rest
  if startsWith 87 rest then weekDay? year hyphens (rest.drop 1) else monthDay? year hyphens rest

/-- A time: its components and whether the text was read to its end. -/
structure Clock where
  hour : Nat
  minute : Nat
  second : Nat
  micros : Nat
  complete : Bool
deriving DecidableEq

/-- Microseconds of a fraction, and whether it was read to its end. -/
def fraction? (t : Text) : Option (Nat × Bool) := do
  let count := min 6 t.length
  let (n, rest) ← digits? count t
  pure (n * Nat.pow 10 (6 - count), atEnd (rest.dropWhile isDigit))

/-- The components of a time still to be read, after those read so far in reverse. -/
def components? (colons : Bool) : Nat → List Nat → Text → Option (List Nat × Nat × Bool)
  | 0, done, t => (fraction? t).map fun f => (done, f)
  | left + 1, done, t => do
    let (n, rest) ← digits? 2 t
    let done := n :: done
    let colons := if done.length = 1 then startsWith 58 rest else colons
    match rest with
    | [] => some (done, 0, true)
    | [c] => if c.val < 128 then some (done, 0, c.val == 0) else none
    | c :: after =>
      if colons && c.val == 58 then components? colons left done after
      else if c.val = 46 ∨ c.val = 44 then (fraction? after).map fun f => (done, f)
      else if colons then none
      else components? colons left done rest

def clock? (t : Text) : Option Clock :=
  (components? false 3 [] t).map fun (done, micros, complete) =>
    let part (i : Nat) : Nat := done.reverse.getD i 0
    ⟨part 0, part 1, part 2, micros, complete⟩

namespace Clock

def seconds (c : Clock) : Nat := c.hour * 3600 + c.minute * 60 + c.second

def isTimeOfDay (c : Clock) : Bool := c.hour < 24 && c.minute < 60 && c.second < 60

end Clock

/-- The offset from UTC that a sign and a time of less than a day denote. Without whole seconds
it is zero. -/
def offset? (negative : Bool) (t : Text) : Option Int := do
  let c ← clock? t
  let micros : Int := c.seconds * Duration.perSecond + c.micros
  if !c.complete then none
  else if c.seconds = 0 then some 0
  else if micros < Duration.perDay then some (if negative then -micros else micros)
  else none

def opensOffset (c : CodePoint) : Bool := c.val == 43 || c.val == 45 || c.val == 90

/-- The time of day and the offset, if there is one. -/
def time? (t : Text) : Option (Clock × Option Int) := do
  let c ← clock? (t.takeWhile fun c => !opensOffset c)
  match t.dropWhile fun c => !opensOffset c with
  | [] => if c.complete then some (c, none) else none
  | sign :: rest =>
    if sign.val = 90 then (if atEnd rest then some (c, some 0) else none)
    else do
      let o ← offset? (sign.val == 45) rest
      some (c, some o)

def ofDayTime? (day : Nat) (c : Clock) (offset : Option Int) : Option Instant :=
  if c.isTimeOfDay then
    Instant.ofWall? (day * Duration.perDay + c.seconds * Duration.perSecond + c.micros : Nat) offset
  else none

/-- The text with a lone surrogate at the first of the places of a separator taken as a `T`. -/
def plainSeparator (t : Text) : Text :=
  match [7, 8, 10].find? fun i => ((t[i]?).map CodePoint.isSurrogate).getD false with
  | some i => t.set i (CodePoint.ofChar 'T')
  | none => t

/-- The instant that a stamp denotes, with its own offset. -/
def instant? (t : Text) : Option Instant := do
  let t := plainSeparator t
  if t.length < 7 || !t.isWellFormed then none
  else
    let n := dateLength t
    let day ← date? (t.take n)
    match t.drop n with
    | [] => ofDayTime? day ⟨0, 0, 0, 0, true⟩ none
    | _ :: time => do
      let (c, offset) ← time? time
      ofDayTime? day c offset

/-- A stamp with its final `Z` written as an offset. -/
def expandZulu (t : Text) : Text :=
  match Text.dropBack? (lit "Z") t with
  | some front => front ++ lit "+00:00"
  | none => t

/-- The instant in UTC that a stamp denotes; without an offset it is in UTC. -/
def read (t : Text) : Except Fault Instant :=
  match instant? (expandZulu t) with
  | some i => i.toUtc
  | none => .error (.platform .malformedValue)

end AuditTrail.StampReader
