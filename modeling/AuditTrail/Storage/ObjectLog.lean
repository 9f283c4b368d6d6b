import AuditTrail.Decimal.Integer
import AuditTrail.Storage.Bucket
import AuditTrail.Storage.FileLog

/-!
# The log in a bucket

One object for each entry. Its key holds the milliseconds since 1970 with leading zeros and the
entry's id, so that the order of the keys is the order of the instants from 1970 on.
-/

namespace AuditTrail

/-- An object service and the ids of entries to come. -/
structure Objects where
  service : ObjectService
  ids : IdSource

instance : Inhabited Objects := ⟨⟨default, default⟩⟩

/-- A log's bucket, and the beginning of its keys without slashes at the end. -/
structure ObjectLog where
  bucket : Text
  folder : Text
deriving DecidableEq

namespace ObjectLog

def ofFolder (bucket folder : Text) : ObjectLog :=
  ⟨bucket, (folder.reverse.dropWhile (· == CodePoint.ofChar '/')).reverse⟩

def root (l : ObjectLog) : Text := l.folder ++ lit "/"

/-- Milliseconds at a width of fifteen with the sign. -/
def millisText (ms : Int) : Text :=
  if ms < 0 then CodePoint.ofChar '-' :: Decimal.padded 14 ms.natAbs else Decimal.padded 15 ms.natAbs

def keyFor (l : ObjectLog) (e : Entry) : Except Fault Text := do
  let ms ← e.createdAt.epochMillis
  match e.id.display? with
  | some id => pure (l.root ++ millisText ms ++ lit "-" ++ id ++ lit ".json")
  | none => .error .oversized

def millisOfKey? (l : ObjectLog) (key : Text) : Option Int := do
  let name ← Text.dropBack? (lit ".json") (← Text.dropFront? l.root key)
  match Text.cut (CodePoint.ofChar '-') name with
  | (ms, some (_ :: _)) => Decimal.readInteger ms
  | _ => none

/-- The order of keys: by their milliseconds, then by themselves. -/
def keyLe (a b : Int × Text) : Bool := a.1 < b.1 || (a.1 == b.1 && Text.le a.2 b.2)

def entryKeys (l : ObjectLog) (listed : List Text) : List (Int × Text) :=
  (listed.filterMap fun k => (l.millisOfKey? k).map (·, k)).mergeSort keyLe

abbrev Attempt (α : Type) := ObjectService → Except CallFault α × ObjectService

def listKeys (l : ObjectLog) : Attempt (List (Int × Text)) := fun s =>
  let out := s.list l.bucket l.root
  (out.1.map l.entryKeys, out.2)

def readBody (bs : List UInt8) : Except CallFault Entry :=
  match Json.readUtf8 bs >>= Entry.ofRecord with
  | .ok e => .ok e
  | .error f => .error (.host f)

def getEntry (l : ObjectLog) (key : Text) : Attempt Entry := fun s =>
  let out := s.get l.bucket key
  (out.1 >>= readBody, out.2)

def getEntries (l : ObjectLog) : List Text → Attempt (List Entry)
  | [], s => (.ok [], s)
  | k :: ks, s =>
    match l.getEntry k s with
    | (.error f, s) => (.error f, s)
    | (.ok e, s) =>
      let rest := getEntries l ks s
      (rest.1.map (e :: ·), rest.2)

/-- Gets entries, latest key first, until one is before an instant. -/
def getBefore (l : ObjectLog) (t : Instant) : List Text → Attempt (Option Entry)
  | [], s => (.ok none, s)
  | k :: ks, s =>
    match l.getEntry k s with
    | (.error f, s) => (.error f, s)
    | (.ok e, s) =>
      match e.createdAt.before t with
      | .error f => (.error (.host f), s)
      | .ok true => (.ok (some e), s)
      | .ok false => getBefore l t ks s

/-- A step of a log as an operation, in which a service fault tells what was being done. -/
def attempt {α : Type} (action : RemoteAction) (a : Attempt α) : Op Objects α := fun w =>
  let out := a w.service
  (match out.1 with
    | .ok x => .ok x
    | .error (.service f) => .error (.remote action f)
    | .error (.host f) => .error f,
   { w with service := out.2 })

/-- Puts an object for a draft. The id is used up even if nothing can be written. -/
def create (l : ObjectLog) (d : Draft) : Op Objects Entry := fun w =>
  let e := d.withId (.text w.ids.next)
  let w := { w with ids := w.ids.take }
  let prepared : Except Fault (Text × List UInt8) := do
    let stamp ← Stamp.write e.createdAt
    let details ← Canonical.toJson e.details
    let key ← l.keyFor e
    let body ← Canonical.encodeBytes (.map (e.recordFields details stamp))
    pure (key, body)
  match prepared with
  | .error f => (.error f, w)
  | .ok (key, body) =>
    attempt .writing (fun s =>
      let out := s.put l.bucket key body
      (out.1.map fun _ => e, out.2)) w

def findLast (l : ObjectLog) : Op Objects (Option Entry) :=
  attempt .readingLast fun s =>
    match l.listKeys s with
    | (.error f, s) => (.error f, s)
    | (.ok keys, s) =>
      match keys.getLast? with
      | none => (.ok none, s)
      | some k =>
        let out := l.getEntry k.2 s
        (out.1.map some, out.2)

def findJustBefore (l : ObjectLog) (t : Instant) : Op Objects (Option Entry) := fun w =>
  match t.epochMillis with
  | .error f => (.error f, w)
  | .ok bound =>
    attempt .readingOne (fun s =>
      match l.listKeys s with
      | (.error f, s) => (.error f, s)
      | (.ok keys, s) => l.getBefore t ((keys.filter fun k => k.1 ≤ bound).map (·.2)).reverse s) w

def findKeys (l : ObjectLog) (p : Int → Bool) : Op Objects (List Entry) :=
  attempt .readingMany fun s =>
    match l.listKeys s with
    | (.error f, s) => (.error f, s)
    | (.ok keys, s) => l.getEntries ((keys.filter fun k => p k.1).map (·.2)) s

/-- The entries between two instants. A key tells only the millisecond, so the exact ends are
applied to the entries themselves. -/
def findBetween (l : ObjectLog) (start finish : Instant) : Op Objects (List Entry) := fun w =>
  match start.epochMillis, finish.epochMillis with
  | .error f, _ => (.error f, w)
  | .ok _, .error f => (.error f, w)
  | .ok low, .ok high =>
    let out := l.findKeys (fun ms => low ≤ ms && ms ≤ high) w
    (out.1 >>= Ordered.between start finish, out.2)

def store (l : ObjectLog) : Store Objects where
  create := l.create
  findLast := l.findLast
  findJustBefore := l.findJustBefore
  findBetween := l.findBetween
  all := l.findKeys fun _ => true

def check (l : ObjectLog) : Op Objects Unit := fun w =>
  let out := w.service.head l.bucket
  (match out.1 with
    | .ok _ => .ok ()
    | .error (.service f) => .error (.refused l.bucket f)
    | .error (.host f) => .error f,
   { w with service := out.2 })

end ObjectLog

end AuditTrail
