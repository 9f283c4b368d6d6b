import AuditTrail.Storage.Kind
import AuditTrail.Time.Duration
import AuditTrail.Value.Literal

/-!
# Faults

What an operation of the audit trail can fail with, by its cause. Each fault has one message;
faults of the platform have no wording of their own and share a placeholder.
-/

namespace AuditTrail

/-- Numbers that monitoring knows audit faults by. -/
inductive FaultCode where
  | writeFailed
  | chainBroken
  | invalidRange
deriving DecidableEq

namespace FaultCode

def number : FaultCode → Nat
  | writeFailed => 4010
  | chainBroken => 4011
  | invalidRange => 4012

def ofValue? (v : Value) : Option FaultCode :=
  [writeFailed, chainBroken, invalidRange].find? fun c => v.sameNumber (.int c.number)

end FaultCode

/-- The classes of faults that belong to the audit trail itself. -/
inductive FaultClass where
  | general
  | storage
  | encoding
  | range
  | closed
  | integrity
deriving DecidableEq

namespace FaultClass

def defaultCode : FaultClass → Option FaultCode
  | range => some .invalidRange
  | integrity => some .chainBroken
  | _ => none

/-- The code of a fault, which a given code overrides. -/
def code (c : FaultClass) (given : Option FaultCode) : Option FaultCode := given.or c.defaultCode

def isTypeFault (c : FaultClass) : Bool := c == encoding

/-- The fault is also a fault of a value of the right type. -/
def isValueFault (c : FaultClass) : Bool := c == range

end FaultClass

inductive Unencodable where
  | nonFinite (x : Binary64)
  | loneSurrogate (t : Text)
  | keyNotText (typeName literal : Text)
  | unsupported (typeName : Text)
deriving DecidableEq

inductive RangeFault where
  | unaware
  | reversed (start finish : Text)
  | tooWide (span limit : Int)
deriving DecidableEq

inductive RemoteCall where
  | headBucket
  | putObject
  | getObject
  | listObjects
deriving DecidableEq

inductive RemoteFault where
  /-- The service answered with a code and a message, or without them. -/
  | answered (call : RemoteCall) (reply : Option (Text × Text))
  | unreachable (url : Text)
deriving DecidableEq

/-- What an object log was doing when the service failed. -/
inductive RemoteAction where
  | writing
  | readingLast
  | readingOne
  | readingMany
deriving DecidableEq

inductive DiskFault where
  | missing
  | fileExists
  | notAFolder
  | isAFolder
  | nameTooLong
deriving DecidableEq

inductive SettingFault where
  | unknownStore (given : Text)
  | bucketMissing
  | notAnInteger (key given : Text)
  | notPositive (key : Text) (given : Int)
  | notABoolean (key given : Text)
deriving DecidableEq

/-- Faults of the platform, which have no wording of their own. -/
inductive PlatformFault where
  | wrongType
  | noSuchAttribute
  | outOfRange
  | unencodableText
  | undecodableOctets
  | malformedJson
  | malformedValue
deriving DecidableEq

/-- Faults with a given text that come from outside the audit trail. -/
inductive HostFault where
  | runtime
  | operatingSystem
  | connection
deriving DecidableEq

/-- What an operation can fail with. -/
inductive Fault where
  | encoding (why : Unencodable)
  | range (why : RangeFault)
  | closed
  | integrity (text : Text)
  | outage (text : Text)
  | unreadable (path : Text) (cause : Fault)
  | unwritable (cause : Fault)
  | noClient (reason : Text)
  | refused (bucket : Text) (cause : RemoteFault)
  | remote (action : RemoteAction) (cause : RemoteFault)
  | missingKey (key : Value)
  | unaware (subject : Text)
  | setting (why : SettingFault)
  | disk (why : DiskFault) (path : Text)
  | platform (why : PlatformFault)
  | host (kind : HostFault) (text : Text)

instance : Inhabited Fault := ⟨.closed⟩

namespace Unencodable

def message : Unencodable → Text
  | nonFinite x => lit "non-finite number cannot be encoded: " ++ x.literal
  | loneSurrogate t => lit "string is not valid unicode: " ++ Quoted.text t
  | keyNotText typeName literal => lit "map keys must be strings, got " ++ typeName ++ lit ": " ++ literal
  | unsupported typeName => lit "unsupported type for canonical encoding: " ++ typeName

end Unencodable

namespace RangeFault

def message : RangeFault → Text
  | unaware => lit "verification range bounds must be timezone-aware"
  | reversed start finish => lit "start " ++ start ++ lit " is after end " ++ finish
  | tooWide span limit =>
    lit "verification range " ++ Duration.text span ++ lit " exceeds maximum " ++ Duration.text limit

end RangeFault

namespace RemoteCall

def name : RemoteCall → Text
  | headBucket => lit "HeadBucket"
  | putObject => lit "PutObject"
  | getObject => lit "GetObject"
  | listObjects => lit "ListObjectsV2"

end RemoteCall

namespace RemoteFault

def codeText (reply : Option (Text × Text)) : Text := (reply.map (·.1)).getD (lit "Unknown")

def message : RemoteFault → Text
  | answered call reply =>
    lit "An error occurred (" ++ codeText reply ++ lit ") when calling the " ++ call.name ++
      lit " operation: " ++ (reply.map (·.2)).getD (lit "Unknown")
  | unreachable url => lit "Could not connect to the endpoint URL: \"" ++ url ++ lit "\""

end RemoteFault

namespace RemoteAction

def name : RemoteAction → Text
  | writing => lit "Failed to write audit entry to S3"
  | readingLast => lit "Failed to read last audit entry from S3"
  | readingOne => lit "Failed to read audit entry from S3"
  | readingMany => lit "Failed to read audit entries from S3"

end RemoteAction

namespace DiskFault

def reason : DiskFault → Text
  | missing => lit "[Errno 2] No such file or directory"
  | fileExists => lit "[Errno 17] File exists"
  | notAFolder => lit "[Errno 20] Not a directory"
  | isAFolder => lit "[Errno 21] Is a directory"
  | nameTooLong => lit "[Errno 36] File name too long"

end DiskFault

namespace SettingFault

def message : SettingFault → Text
  | unknownStore given =>
    lit "AUDITCHAIN_STORE must be one of " ++ Text.join (lit ", ") (StoreKind.all.map StoreKind.name) ++ lit ", got " ++
      Quoted.text given
  | bucketMissing => lit "AUDITCHAIN_S3_BUCKET is required when AUDITCHAIN_STORE=s3"
  | notAnInteger key given => key ++ lit " must be an integer, got " ++ Quoted.text given
  | notPositive key given => key ++ lit " must be positive, got " ++ Decimal.ofInt given
  | notABoolean key given => key ++ lit " must be a boolean, got " ++ Quoted.text given

end SettingFault

namespace Fault

def oversized : Fault := .platform .malformedValue

def outOfRange : Fault := .platform .outOfRange

def wrongType : Fault := .platform .wrongType

def message : Fault → Text
  | encoding why => why.message
  | range why => why.message
  | closed => lit "appender is closed"
  | integrity text => text
  | outage text => text
  | unreadable path cause => lit "failed to read audit log " ++ path ++ lit ": " ++ cause.message
  | unwritable cause => cause.message
  | noClient reason => lit "Failed to create S3 client: " ++ reason
  | refused bucket (.answered _ reply) =>
    lit "Bucket '" ++ bucket ++ lit "' not accessible (code: " ++ RemoteFault.codeText reply ++ lit ")"
  | refused bucket cause => lit "Bucket '" ++ bucket ++ lit "' not accessible: " ++ cause.message
  | remote action cause => action.name ++ lit ": " ++ cause.message
  | missingKey key => key.literal?.getD []
  | unaware subject => subject ++ lit " must be timezone-aware"
  | setting why => why.message
  | disk why path => why.reason ++ lit ": " ++ Quoted.text path
  | platform _ => lit "<runtime>"
  | host _ text => text

def class? : Fault → Option FaultClass
  | encoding _ => some .encoding
  | range _ => some .range
  | closed => some .closed
  | integrity _ => some .integrity
  | outage _ | unreadable _ _ | unwritable _ | noClient _ | refused _ _ | remote _ _ => some .storage
  | _ => none

variable {α β : Type}

theorem bind_eq_ok_iff {x : Except Fault α} {f : α → Except Fault β} {b : β} :
    x >>= f = .ok b ↔ ∃ a, x = .ok a ∧ f a = .ok b := by
  cases x with
  | error e => simp [bind, Except.bind]
  | ok a => simp [bind, Except.bind]

theorem bind_eq_error_iff {x : Except Fault α} {f : α → Except Fault β} {g : Fault} :
    x >>= f = .error g ↔ x = .error g ∨ ∃ a, x = .ok a ∧ f a = .error g := by
  cases x with
  | error e => simp [bind, Except.bind]
  | ok a => simp [bind, Except.bind]

theorem map_eq_ok_iff {x : Except Fault α} {f : α → β} {b : β} :
    x.map f = .ok b ↔ ∃ a, x = .ok a ∧ f a = b := by
  cases x with
  | error e => simp [Except.map]
  | ok a => simp [Except.map]

theorem map_eq_error_iff {x : Except Fault α} {f : α → β} {g : Fault} : x.map f = .error g ↔ x = .error g := by
  cases x with
  | error e => simp [Except.map]
  | ok a => simp [Except.map]

variable {f : α → Except Fault β} {xs : List α}

theorem exists_of_mapM_eq_ok {ys : List β} (h : xs.mapM f = .ok ys) {x : α} (hx : x ∈ xs) : ∃ y, f x = .ok y := by
  induction xs generalizing ys with
  | nil => exact absurd hx List.not_mem_nil
  | cons a xs ih =>
    rw [List.mapM_cons, bind_eq_ok_iff] at h
    obtain ⟨y, hy, h⟩ := h
    obtain ⟨zs, hz, -⟩ := bind_eq_ok_iff.mp h
    rcases List.mem_cons.mp hx with rfl | hm
    · exact ⟨y, hy⟩
    · exact ih hz hm

theorem exists_of_mapM_eq_error {e : Fault} (h : xs.mapM f = .error e) : ∃ x ∈ xs, f x = .error e := by
  induction xs with
  | nil => simp [pure, Except.pure] at h
  | cons a xs ih =>
    rw [List.mapM_cons] at h
    cases ha : f a with
    | error g =>
      simp only [ha, bind, Except.bind, Except.error.injEq] at h
      exact ⟨a, List.mem_cons_self, h ▸ ha⟩
    | ok b =>
      cases hs : xs.mapM f with
      | error g =>
        simp only [ha, hs, bind, Except.bind, Except.error.injEq] at h
        obtain ⟨x, hx, hf⟩ := ih (h ▸ hs)
        exact ⟨x, List.mem_cons_of_mem a hx, hf⟩
      | ok bs => simp [ha, hs, bind, Except.bind, pure, Except.pure] at h

end Fault

/-- A fallible operation on a state, which keeps the state also when it fails. -/
abbrev Op (σ α : Type) := σ → Except Fault α × σ

end AuditTrail
