import AuditTrail.Appender
import AuditTrail.Settings

/-!
# The service

A service starts the metrics, their server and then its appender, and reports which kind of store
it works on.
-/

namespace AuditTrail.Service

def startedLine (kind : StoreKind) : LogLine :=
  ⟨.service, .info, lit "Audit log service started", [(lit "store", .text kind.name)]⟩

/-- Starts the metrics, and their server if it is enabled. -/
def startWatch (settings : Settings) (w : Watch) : Watch :=
  w.startMetrics.startServer settings.metricsEnabled settings.metricsPort

def start {W : Type} (settings : Settings) (store : Store W) : Appender.Act W (Except Fault Unit) :=
  fun (a, s) =>
    match Appender.start store (a, { s with watch := startWatch settings s.watch }) with
    | (.ok _, a, s) => (.ok (), a, { s with watch := s.watch.add (startedLine settings.store) })
    | (.error f, a, s) => (.error f, a, s)

end AuditTrail.Service
