import AuditTrail.Fault
import AuditTrail.Watch.Bus
import AuditTrail.Watch.LogLine
import AuditTrail.Watch.Metrics

/-!
# Everything that watches the audit trail

The log, the metrics with their server, and the emitter of notices together with the notices that
its listeners have recorded.
-/

namespace AuditTrail

/-- What the audit trail tells the application around it. -/
inductive Notice where
  | writeFailed (error : Text) (eventType source : Value)
  | chainBroken (id expected actual : Value)

namespace Notice

def writeFailedTopic : Text := lit "monitoring.audit.write_failed"

def chainBrokenTopic : Text := lit "monitoring.audit.chain_broken"

def topic : Notice → Text
  | writeFailed .. => writeFailedTopic
  | chainBroken .. => chainBrokenTopic

def fields : Notice → List (Text × Value)
  | writeFailed error eventType source =>
    [(lit "error", .text error), (lit "event_type", eventType), (lit "module", source)]
  | chainBroken id expected actual =>
    [(lit "broken_at_id", id), (lit "expected_hash", expected), (lit "actual_hash", actual)]

end Notice

/-- A subscriber to notices: one that records them, one that records those that it can write down as texts, or one that
fails. -/
inductive Listener where
  | archive
  | recorder
  | failing
deriving DecidableEq

namespace Listener

/-- The listener takes a notice. A recorder takes those whose fields are all texts. -/
def takes (n : Notice) : Listener → Bool
  | archive => true
  | recorder => n.fields.all fun f => f.2.isText
  | failing => false

/-- What a listener does when it is handed a notice: it fails unless it takes it. -/
def behaviour (n : Notice) (l : Listener) : List (Effect Listener) := if l.takes n then [] else [.fail]

end Listener

inductive Emitter where
  | silent
  | broken
  | bus (b : Bus Listener)

namespace Emitter

def ofListeners (ls : List Listener) : Emitter :=
  .bus ⟨[Notice.writeFailedTopic, Notice.chainBrokenTopic].flatMap fun t => ls.map (t, ·)⟩

end Emitter

/-- The log, the notices, the metrics and the metrics' server. -/
structure Watch where
  emitter : Emitter
  log : List LogLine
  notices : List Notice
  metrics : Metrics
  servers : List Int
  portBusy : Bool

instance : Inhabited Watch := ⟨⟨.silent, [], [], .off, [], false⟩⟩

namespace Watch

def ofEmitter (e : Emitter) (portBusy : Bool) : Watch := ⟨e, [], [], .off, [], portBusy⟩

def add (line : LogLine) (w : Watch) : Watch := { w with log := w.log ++ [line] }

def handlerFailed (topic : Text) : LogLine :=
  ⟨.notifications, .error, lit "Event handler failed", [(lit "event_name", .text topic)]⟩

/-- Hands a notice to the emitter; tells whether the emitter took it. -/
def emit (n : Notice) (w : Watch) : Bool × Watch :=
  match w.emitter with
  | .silent => (true, w)
  | .broken => (false, w)
  | .bus b =>
    let d := b.emit (Listener.behaviour n) n Bus.depthLimit n.topic
    let recorded := (d.calls.filter fun c => c.1.takes c.2).map (·.2)
    (true, { w with
      emitter := .bus d.bus
      log := w.log ++ d.failures.map handlerFailed
      notices := w.notices ++ recorded })

/-- Hands a notice to the emitter and reports with the given words if it was not taken. -/
def notify (channel : Channel) (refusal : Text) (n : Notice) (w : Watch) : Watch :=
  match w.emit n with
  | (true, w) => w
  | (false, w) => w.add ⟨channel, .error, refusal, []⟩

def count (f : Metrics → Metrics) (w : Watch) : Watch := { w with metrics := f w.metrics }

def startMetrics (w : Watch) : Watch :=
  if w.metrics.running then w
  else
    let started := { w with metrics := { w.metrics with running := true } }
    started.add ⟨.metrics, .info, lit "Prometheus metrics initialized", []⟩

def portBusyText : Text := lit "[Errno 98] Address already in use"

def serverDisabled : LogLine := ⟨.metrics, .info, lit "Metrics server disabled (METRICS_ENABLED=false)", []⟩

def serverStarted (port : Int) : LogLine :=
  ⟨.metrics, .info, lit "Metrics server started", [(lit "port", .int port)]⟩

def serverFailed (port : Int) : LogLine :=
  ⟨.metrics, .error, lit "Failed to start metrics server",
    [(lit "port", .int port), (lit "error", .text portBusyText)]⟩

def startServer (enabled : Bool) (port : Int) (w : Watch) : Watch :=
  if !enabled then w.add serverDisabled
  else
    let w := w.startMetrics
    if w.portBusy then w.add (serverFailed port)
    else
      let started := { w with servers := w.servers ++ [port] }
      started.add (serverStarted port)

end Watch

end AuditTrail
