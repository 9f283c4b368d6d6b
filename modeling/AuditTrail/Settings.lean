import AuditTrail.Decimal.Integer
import AuditTrail.Fault
import AuditTrail.Text.Case

/-!
# Settings

The settings of an audit trail are read from named texts. A name that is missing has its default;
so has a blank number or a blank switch. Settings are read in a fixed order, and the first one that
is refused is the fault.
-/

namespace AuditTrail

abbrev Environment := List (Text × Text)

namespace Environment

def get? (key : String) (env : Environment) : Option Text :=
  (env.find? fun e => e.1 == lit key).map (·.2)

def getD (key : String) (default : String) (env : Environment) : Text :=
  (env.get? key).getD (lit default)

def nonEmpty? (key : String) (env : Environment) : Option Text :=
  (env.get? key).filter fun t => !t.isEmpty

def nonBlank? (key : String) (env : Environment) : Option Text :=
  (env.get? key).filter fun t => !(Text.trim t).isEmpty

end Environment

structure Settings where
  store : StoreKind
  logPath : Text
  bucket : Option Text
  folder : Text
  endpoint : Option Text
  region : Text
  queueLimit : Nat
  maxRangeDays : Option Nat
  metricsEnabled : Bool
  metricsPort : Nat

namespace Settings

def defaultLogPath : String := "/tmp/auditchain/audit.log"

def default : Settings :=
  ⟨.memory, lit defaultLogPath, none, lit "audit", none, lit "us-east-1", 10000, none, false, 8080⟩

def readPositive (env : Environment) (key : String) : Except Fault (Option Nat) :=
  match env.nonBlank? key with
  | none => .ok none
  | some t =>
    match Decimal.readInteger t with
    | none => .error (.setting (.notAnInteger (lit key) t))
    | some n => if n ≤ 0 then .error (.setting (.notPositive (lit key) n)) else .ok (some n.toNat)

def onWords : List Text := [lit "1", lit "true", lit "yes", lit "on"]

def offWords : List Text := [lit "0", lit "false", lit "no", lit "off"]

def readSwitch (env : Environment) (key : String) : Except Fault (Option Bool) :=
  match env.nonBlank? key with
  | none => .ok none
  | some t =>
    let word := Text.lower (Text.trim t)
    if word ∈ onWords then .ok (some true)
    else if word ∈ offWords then .ok (some false)
    else .error (.setting (.notABoolean (lit key) t))

def readStore (env : Environment) : Except Fault StoreKind :=
  let given := Text.lower (Text.trim (env.getD "AUDITCHAIN_STORE" "memory"))
  match StoreKind.ofName? given with
  | some k => .ok k
  | none => .error (.setting (.unknownStore given))

def readBucket (env : Environment) (store : StoreKind) : Except Fault (Option Text) :=
  match env.nonEmpty? "AUDITCHAIN_S3_BUCKET" with
  | some b => .ok (some b)
  | none => if store = .bucket then .error (.setting .bucketMissing) else .ok none

def ofEnvironment (env : Environment) : Except Fault Settings := do
  let store ← readStore env
  let bucket ← readBucket env store
  let queueLimit ← readPositive env "AUDITCHAIN_QUEUE_MAXSIZE"
  let maxRangeDays ← readPositive env "AUDITCHAIN_VERIFY_MAX_RANGE_DAYS"
  let metricsEnabled ← readSwitch env "METRICS_ENABLED"
  let metricsPort ← readPositive env "METRICS_PORT"
  pure {
    store := store
    logPath := env.getD "AUDITCHAIN_LOG_PATH" defaultLogPath
    bucket := bucket
    folder := env.getD "AUDITCHAIN_S3_PREFIX" "audit"
    endpoint := env.nonEmpty? "AUDITCHAIN_S3_ENDPOINT"
    region := env.getD "AUDITCHAIN_S3_REGION" "us-east-1"
    queueLimit := queueLimit.getD default.queueLimit
    maxRangeDays := maxRangeDays
    metricsEnabled := metricsEnabled.getD default.metricsEnabled
    metricsPort := metricsPort.getD default.metricsPort }

/-- The widest range that may be verified, in microseconds, if there is a limit. -/
def maxRange (s : Settings) : Except Fault (Option Int) :=
  match s.maxRangeDays with
  | none => .ok none
  | some days => if days ≤ Duration.dayLimit then .ok (some (days * Duration.perDay : Nat)) else .error .outOfRange

end Settings

end AuditTrail
