import AuditTrail.Settings
import AuditTrail.Value.Literal
import AuditTrail.Watch.LogLine

/-!
# The console

The console prints what loggers are given, either as fields or as a line of text. A logger has the
console's level, but the loggers of noisy libraries and those below them have a level of their own.
A logger is below the nearest known one whose name is its own up to a dot. Every line tells which
request it belongs to; where nothing is known it says so.
-/

namespace AuditTrail

inductive ConsoleLayout where
  | fields
  | line
deriving DecidableEq

/-- The level from which the console prints, and its layout. -/
structure Console where
  level : Level
  layout : ConsoleLayout

/-- What a logger is given: its name, a level, a message and fields. -/
structure Statement where
  logger : Text
  level : Level
  message : Text
  fields : List (Text × Value)

inductive Printed where
  | fields (fs : List (Text × Value))
  | line (t : Text)

namespace Console

/-- The console of an environment: from level `INFO` on and as fields, unless it says otherwise. -/
def ofEnvironment (env : Environment) : Console where
  level :=
    let given := Text.upperPlain (env.getD "AUDITCHAIN_LOG_LEVEL" "INFO")
    (Level.all.find? fun l => l.name == given).getD .info
  layout := if Text.lower (env.getD "AUDITCHAIN_LOG_FORMAT" "json") = lit "json" then .fields else .line

def quietLoggers : List Text := [lit "botocore", lit "boto3", lit "urllib3"]

def quietLevel : Level := .warning

/-- The beginnings of a reversed name before its dots, the longest first. A dot directly before one
that was taken is passed over, and so is a dot at the very front. -/
def beginnings : Bool → Text → List Text
  | _, [] => []
  | passed, c :: rest =>
    if !passed && c == CodePoint.ofChar '.' && !rest.isEmpty then rest.reverse :: beginnings true rest
    else beginnings false rest

/-- The names that a logger may be below, the nearest first. -/
def namesAbove (logger : Text) : List Text := beginnings false logger.reverse

/-- A noisy logger, or one that is below it by way of known loggers, so many steps up at most. -/
def isQuietWithin (known : List Text) : Nat → Text → Bool
  | 0, logger => quietLoggers.contains logger
  | steps + 1, logger =>
    quietLoggers.contains logger ||
      match (namesAbove logger).find? fun n => quietLoggers.contains n || known.contains n with
      | some n => isQuietWithin known steps n
      | none => false

def levelOf (c : Console) (known : List Text) (logger : Text) : Level :=
  if isQuietWithin known logger.length logger then quietLevel else c.level

def printedName (logger : Text) : Text := if logger.isEmpty then lit "root" else logger

def requestField : Text := lit "correlation_id"

def unknownRequest : Value := .text (lit "N/A")

/-- Names that every record of a logger holds already. -/
def recordNames : List Text := ["name", "msg", "args", "levelname", "levelno", "pathname", "filename",
  "module", "exc_info", "exc_text", "stack_info", "lineno", "funcName", "created", "msecs",
  "relativeCreated", "thread", "threadName", "processName", "process", "message", "asctime"].map lit

/-- The name under which a record finds the making of its message. A field of this name hides it, and
the record is dropped. -/
def messageMaker : Text := lit "getMessage"

/-- Fields in which a later value of a name replaces an earlier one. -/
def merge (fs gs : List (Text × Value)) : List (Text × Value) :=
  fs.filter (fun f => !gs.any fun g => g.1 == f.1) ++ gs

/-- The fields of a logger that knows its request; those given with a message win. -/
def withRequest (request : Value) (given : List (Text × Value)) : List (Text × Value) :=
  merge [(requestField, if request.isFilled then request else unknownRequest)] given

def requestOf (fs : List (Text × Value)) : Value :=
  ((fs.find? fun f => f.1 == requestField).map (·.2)).getD unknownRequest

/-- The statement as fields, at a time. Fields that are given win over those of the record. -/
def asFields (time : Text) (s : Statement) : List (Text × Value) :=
  merge [
    (requestField, unknownRequest),
    (lit "timestamp", .text time),
    (lit "logger", .text (printedName s.logger)),
    (lit "level", .text s.level.name),
    (lit "message", .text s.message)]
    (s.fields.filter fun f => f.1.head? != some (CodePoint.ofChar '_'))

def asLine (time : Text) (s : Statement) : Text :=
  Text.join (lit " - ") [time, printedName s.logger, s.level.name, s.message] ++
    lit " [" ++ requestField ++ lit "=" ++ (requestOf s.fields).display ++ lit "]\n"

/-- What the console prints for a statement at a time, if anything. Fields may not have names that
every record holds, but that is only noticed where the logger's level admits the statement. -/
def print (c : Console) (known : List Text) (time : Text) (s : Statement) : Except Fault (Option Printed) :=
  if s.level.number < (c.levelOf known s.logger).number then .ok none
  else
    match s.fields.find? fun f => f.1 ∈ recordNames with
    | some f => .error (.missingKey (.text f.1))
    | none =>
      if s.level.number < c.level.number || s.fields.any fun f => f.1 == messageMaker then .ok none
      else .ok (some (match c.layout with
        | .fields => .fields (asFields time s)
        | .line => .line (asLine time s)))

/-- The loggers that were known when a logger was first asked to admit a level: it keeps to its answer. -/
def knownFor (s : Statement) : List Statement → List Text
  | [] => []
  | e :: rest => if e.logger = s.logger ∧ e.level = s.level then [] else e.logger :: knownFor s rest

/-- What the console prints for statements in turn, after earlier ones that made their loggers known. -/
def printAll (c : Console) (time : Text) : List Statement → List Statement → List (Except Fault (Option Printed))
  | _, [] => []
  | earlier, s :: rest => c.print (knownFor s earlier) time s :: c.printAll time (earlier ++ [s]) rest

end Console

end AuditTrail
