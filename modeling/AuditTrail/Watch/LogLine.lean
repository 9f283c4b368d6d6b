import AuditTrail.Value

/-!
# Log lines

What the audit trail reports about its own work: who reports, how grave it is, a fixed message, and
fields that depend on the case.
-/

namespace AuditTrail

/-- How grave a line is. -/
inductive Level where
  | debug
  | info
  | warning
  | error
  | critical
deriving DecidableEq

namespace Level

def number : Level → Nat
  | debug => 10
  | info => 20
  | warning => 30
  | error => 40
  | critical => 50

def name : Level → Text
  | debug => lit "DEBUG"
  | info => lit "INFO"
  | warning => lit "WARNING"
  | error => lit "ERROR"
  | critical => lit "CRITICAL"

def all : List Level := [debug, info, warning, error, critical]

end Level

inductive Channel where
  | appender
  | verifier
  | service
  | metrics
  | notifications
deriving DecidableEq

def Channel.name : Channel → Text
  | appender => lit "auditchain.log.appender"
  | verifier => lit "auditchain.verify.chain"
  | service => lit "auditchain.runtime.service"
  | metrics => lit "auditchain.runtime.metrics"
  | notifications => lit "auditchain.core.notifications"

structure LogLine where
  channel : Channel
  level : Level
  message : Text
  fields : List (Text × Value)

end AuditTrail
