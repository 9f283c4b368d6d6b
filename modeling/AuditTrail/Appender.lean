import AuditTrail.Chain.Link
import AuditTrail.Storage.Store
import AuditTrail.Time.Clock
import AuditTrail.Watch.Watch

/-!
# The appender

Producers queue requests; one writer takes them in order. For each it resolves the tip, which is
the hash of the last entry, assigns an instant after the last one, computes the hash, persists the
entry, and only then advances the tip. A failed request leaves the chain as it was. The writer
stops between resolving the tip and reading the clock while it is held there.

A closed appender takes no request (`submit_of_closed`), and an open one queues it
(`submit_of_open`).
-/

namespace AuditTrail

inductive Item where
  | request (ticket : Nat) (r : Request)
  | stop

inductive Outcome where
  | pending
  | running
  | cancelled
  | stored (e : Entry)
  | failed (f : Fault)

/-- The request at the writer, and the hash it will follow. -/
structure Admitted where
  ticket : Nat
  request : Request
  previousHash : Value
  timed : Bool

/-- The serialized writer of a chain. Requests are known by tickets counted from zero. -/
structure Appender where
  tip : Option Value
  lastAt : Option Instant
  queue : List Item
  admitted : Option Admitted
  outcomes : List Outcome
  started : Bool
  stopped : Bool
  closed : Bool

/-- What an appender works in: the store's world, its clock and its watch. -/
structure Scene (W : Type) where
  world : W
  clock : Clock
  watch : Watch

/-- A step of an appender on its scene. -/
abbrev Appender.Act (W α : Type) := Appender × Scene W → α × Appender × Scene W

namespace Appender

variable {W : Type}

def fresh : Appender := ⟨none, none, [], none, [], false, false, false⟩

instance : Inhabited Appender := ⟨fresh⟩

/-- Requests, and the stop mark, that wait for the writer. -/
def pending (a : Appender) : Nat := a.queue.length

def settleTicket (ticket : Nat) (o : Outcome) (a : Appender) : Appender :=
  { a with outcomes := a.outcomes.set ticket o }

def label (r : Request) : Text := r.eventType.display

/-- The metrics count, but the event type has no label. -/
def isUncountable (r : Request) (w : Watch) : Bool := w.metrics.running && r.eventType.display?.isNone

def failedLine (f : Fault) (r : Request) : LogLine :=
  ⟨.appender, .error, lit "Audit log write failed", [
    (lit "code", .int FaultCode.writeFailed.number),
    (lit "error", .text f.message),
    (lit "event_type", r.eventType),
    (lit "source_module", r.source),
    (lit "correlation_id", r.correlationId)]⟩

/-- Counts, reports and notifies that a request could not be persisted. -/
def reportFailure (f : Fault) (r : Request) (w : Watch) : Watch :=
  ((w.count (·.countFailure (label r))).add (failedLine f r)).notify
    .appender (lit "Failed to emit audit write failure notification")
    (.writeFailed f.message r.eventType r.source)

/-- Loads the tip from the store: the last entry's hash, or the genesis hash. -/
def loadTip (store : Store W) : Act W (Except Fault Value) := fun (a, s) =>
  match store.findLast s.world with
  | (.error f, w) => (.error f, a, { s with world := w })
  | (.ok none, w) =>
    (.ok (.text genesisHash), { a with tip := some (.text genesisHash), lastAt := none }, { s with world := w })
  | (.ok (some e), w) =>
    (.ok e.currentHash, { a with tip := e.currentHash.nonNull?, lastAt := some e.createdAt },
      { s with world := w })

/-- The line of a writer that was started, and whether its tip is that of a chain begun before. -/
def startedLine (tip : Option Value) : LogLine :=
  let loaded := match tip with
    | some t => !t.same (.text genesisHash)
    | none => true
  ⟨.appender, .info, lit "Audit log appender initialized", [(lit "tip_loaded", .bool loaded)]⟩

def startFailedLine (f : Fault) : LogLine :=
  ⟨.appender, .error, lit "Failed to load last audit hash on init",
    [(lit "error", .text f.message), (lit "code", .int FaultCode.writeFailed.number)]⟩

/-- Loads the tip and starts the writer. If the tip cannot be loaded, that is only reported, and
the first request loads it. -/
def start (store : Store W) : Act W (Except Fault Unit) := fun (a, s) =>
  if a.closed then (.error .closed, a, s)
  else if a.started then (.ok (), a, s)
  else
    match loadTip store (a, s) with
    | (.ok _, a, s) =>
      (.ok (), { a with started := true }, { s with watch := s.watch.add (startedLine a.tip) })
    | (.error f, a, s) =>
      (.ok (), { a with started := true }, { s with watch := s.watch.add (startFailedLine f) })

/-- Queues a request and returns its ticket. Details that have no canonical text fail the ticket
without being queued, also on a closed appender; if that failure cannot be counted, no ticket is made. -/
def submit (r : Request) : Act W (Except Fault Nat) := fun (a, s) =>
  match Canonical.toJson r.details with
  | .error (.encoding why) =>
    if isUncountable r s.watch then (.error .oversized, a, s)
    else
      let f := Fault.encoding why
      (.ok a.outcomes.length, { a with outcomes := a.outcomes ++ [.failed f] },
        { s with watch := reportFailure f r s.watch })
  | .error f => (.error f, a, s)
  | .ok details =>
    if a.closed then (.error .closed, a, s)
    else
      let ticket := a.outcomes.length
      (.ok ticket, { a with
          outcomes := a.outcomes ++ [.pending]
          queue := a.queue ++ [.request ticket { r with details := details }]
          started := true }, s)

/-- Withdraws a request that the writer has not taken yet; tells whether it is withdrawn. -/
def cancel (ticket : Nat) (a : Appender) : Bool × Appender :=
  match a.outcomes[ticket]? with
  | some .pending => (true, a.settleTicket ticket .cancelled)
  | some .cancelled => (true, a)
  | _ => (false, a)

/-- Ends the request at the writer with a failure. A failure that cannot be counted ends the writer
instead, and its request stays as it is. -/
def failAdmitted (f : Fault) (p : Admitted) (a : Appender) (s : Scene W) : Appender × Scene W :=
  if isUncountable p.request s.watch then
    ({ a with admitted := none, stopped := true },
      { s with watch := s.watch.count (·.countAppendDuration p.timed) })
  else
    (({ a with admitted := none }).settleTicket p.ticket (.failed f),
      { s with watch := (reportFailure f p.request s.watch).count (·.countAppendDuration p.timed) })

/-- The writer takes the next item: it stops at a stop mark, drops a request that was withdrawn,
and else resolves the tip for it. -/
def takeNext (store : Store W) (a : Appender) (s : Scene W) : Appender × Scene W :=
  match a.queue with
  | [] => (a, s)
  | .stop :: rest => ({ a with queue := rest, stopped := true }, s)
  | .request ticket r :: rest =>
    let a : Appender := { a with queue := rest }
    match a.outcomes[ticket]? with
    | some .cancelled => (a, s)
    | _ =>
      let a := a.settleTicket ticket .running
      let timed := s.watch.metrics.running
      match a.tip with
      | some t => ({ a with admitted := some ⟨ticket, r, t, timed⟩ }, s)
      | none =>
        match loadTip store (a, s) with
        | (.ok t, a, s) => ({ a with admitted := some ⟨ticket, r, t, timed⟩ }, s)
        | (.error f, a, s) => failAdmitted f ⟨ticket, r, .null, timed⟩ a s

/-- The instant of an entry: the clock's reading, or a millisecond after the last entry if the
clock has not passed it. -/
def stampAfter (last : Option Instant) (reading : Instant) : Except Fault Instant :=
  match last with
  | none => .ok reading
  | some t => do
    if ← reading.notAfter t then t.shift Duration.perMilli else pure reading

def draftOf (p : Admitted) (createdAt : Instant) (hash : Text) : Draft :=
  ⟨p.request.eventType, p.request.source, p.request.correlationId, p.request.details, p.previousHash,
    .text hash, createdAt⟩

/-- The linked draft of a request for a clock reading. -/
def link (p : Admitted) (last : Option Instant) (reading : Instant) : Except Fault (Text × Draft) := do
  let createdAt ← stampAfter last reading
  let hash ← Link.hash p.previousHash p.request.eventType createdAt p.request.details
  pure (hash, draftOf p createdAt hash)

def storedLine (e : Entry) (r : Request) : LogLine :=
  ⟨.appender, .debug, lit "Audit entry appended", [
    (lit "entry_id", e.id),
    (lit "event_type", r.eventType),
    (lit "correlation_id", r.correlationId)]⟩

def reportStored (e : Entry) (p : Admitted) (w : Watch) : Watch :=
  ((w.add (storedLine e p.request)).count (·.countAppendDuration p.timed)).count
    (·.countAppend (label p.request))

/-- Ends the request at the writer with a stored entry, and advances the tip to it. -/
def storeAdmitted (p : Admitted) (d : Draft) (hash : Text) (e : Entry) (a : Appender) (s : Scene W) :
    Appender × Scene W :=
  let a := { a with admitted := none, tip := some (.text hash), lastAt := some d.createdAt }
  (a.settleTicket p.ticket (.stored e), { s with watch := reportStored e p s.watch })

def commit (store : Store W) (p : Admitted) (a : Appender) (s : Scene W) : Appender × Scene W :=
  let (reading, clock) := s.clock.now
  let s := { s with clock := clock }
  match reading >>= link p a.lastAt with
  | .error f => failAdmitted f p a s
  | .ok (hash, d) =>
    match store.create d s.world with
    | (.error f, w) => failAdmitted f p a { s with world := w }
    | (.ok e, w) => storeAdmitted p d hash e a { s with world := w }

/-- So many steps of the writer; a held writer does not commit. -/
def work (store : Store W) (held : Bool) : Nat → Appender → Scene W → Appender × Scene W
  | 0, a, s => (a, s)
  | n + 1, a, s =>
    match a.admitted with
    | some p =>
      if held then (a, s)
      else
        let (a, s) := commit store p a s
        work store held n a s
    | none =>
      if a.stopped || a.queue.isEmpty then (a, s)
      else
        let (a, s) := takeNext store a s
        work store held n a s

/-- The writer works until it is idle, held or stopped; every request takes at most two steps. -/
def settle (store : Store W) (held : Bool) (a : Appender) (s : Scene W) : Appender × Scene W :=
  work store held (2 * a.queue.length + 1) a s

/-- The milliseconds that a writer is given to finish where nothing else is said. -/
def defaultTimeout : Option Int := some 5000

/-- The most milliseconds that can be waited for a writer. -/
def timeoutLimit : Int := 9223372036854

/-- A time in milliseconds, counted in seconds; null without a limit. -/
def seconds : Option Int → Value
  | some millis => .float (.ofDecimal (millis < 0) millis.natAbs (-3))
  | none => .null

def drainingLine (pending : Nat) (timeout : Option Int) : LogLine :=
  ⟨.appender, .warning, lit "Audit log writer still draining after close timeout",
    [(lit "pending", .int pending), (lit "timeout", seconds timeout)]⟩

/-- Takes no more requests and lets the writer finish those in the queue. A writer that is held
beyond the time allowed is reported; a time beyond the limit is refused once the appender is closed. -/
def close (store : Store W) (held : Bool) (timeout : Option Int) : Act W (Except Fault Unit) := fun (a, s) =>
  if a.closed then (.ok (), a, s)
  else if !a.started then (.ok (), { a with closed := true }, s)
  else
    let (a, s) := settle store held { a with closed := true, queue := a.queue ++ [.stop] } s
    if timeout.any (timeoutLimit < ·) then (.error .outOfRange, a, s)
    else if a.stopped then (.ok (), a, s)
    else (.ok (), a, { s with watch := s.watch.add (drainingLine a.pending timeout) })

theorem close_of_closed {store : Store W} {held : Bool} {timeout : Option Int} {a : Appender} {s : Scene W}
    (h : a.closed = true) : close store held timeout (a, s) = (.ok (), a, s) := by
  rw [close]
  exact if_pos h

theorem start_of_closed {store : Store W} {a : Appender} {s : Scene W} (h : a.closed = true) :
    start store (a, s) = (.error .closed, a, s) := by
  rw [start]
  exact if_pos h

/-- A closed appender takes no request whose details have a canonical text. -/
theorem submit_of_closed {r : Request} {details : Value} {a : Appender} {s : Scene W}
    (h : a.closed = true) (hd : Canonical.toJson r.details = .ok details) :
    submit r (a, s) = (.error .closed, a, s) := by
  rw [submit]
  simp only [hd, h, if_true]

theorem submit_of_open {r : Request} {details : Value} {a : Appender} {s : Scene W}
    (h : a.closed = false) (hd : Canonical.toJson r.details = .ok details) :
    (submit r (a, s)).1 = .ok a.outcomes.length ∧
      (submit r (a, s)).2.1.queue = a.queue ++ [.request a.outcomes.length { r with details := details }] := by
  rw [submit]
  simp only [hd, h, Bool.false_eq_true, if_false, and_self]

end Appender

end AuditTrail
