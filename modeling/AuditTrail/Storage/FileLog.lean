import AuditTrail.Storage.Disk
import AuditTrail.Storage.Ordered
import AuditTrail.Storage.Store
import AuditTrail.Value.Canonical
import AuditTrail.Value.Json

/-!
# The log file

One line of canonical JSON for each entry, only ever appended. A last line without its line end is
a write that was cut off; it was never acknowledged and is passed over. A line written at the front of a
log is read first (`completeLines_append`).
-/

namespace AuditTrail

structure Files where
  disk : Disk
  ids : IdSource

instance : Inhabited Files := ⟨⟨default, default⟩⟩

namespace FileLog

def newline : UInt8 := 10

def isBlankOctet (b : UInt8) : Bool := b == 32 || (9 ≤ b && b ≤ 13)

/-- The lines that have their line end, each with it, after the octets of a line begun. -/
def completeLines (begun : List UInt8) : List UInt8 → List (List UInt8)
  | [] => []
  | b :: bs =>
    if b = newline then (b :: begun).reverse :: completeLines [] bs
    else completeLines (b :: begun) bs

theorem completeLines_of_not_mem {bs : List UInt8} (h : newline ∉ bs) (begun : List UInt8) :
    completeLines begun bs = [] := by
  induction bs generalizing begun with
  | nil => rfl
  | cons b bs ih =>
    have hb : b ≠ newline := fun e => h (e ▸ List.mem_cons_self)
    rw [completeLines, if_neg hb]
    exact ih (fun m => h (List.mem_cons_of_mem b m)) (b :: begun)

/-- A line reaches up to its line end, and the next one begins there. -/
theorem completeLines_append {line : List UInt8} (h : newline ∉ line) (begun rest : List UInt8) :
    completeLines begun (line ++ newline :: rest) =
      (begun.reverse ++ line ++ [newline]) :: completeLines [] rest := by
  induction line generalizing begun with
  | nil => rw [List.nil_append, completeLines, if_pos rfl, List.reverse_cons, List.append_nil]
  | cons b line ih =>
    have hb : b ≠ newline := fun e => h (e ▸ List.mem_cons_self)
    rw [List.cons_append, completeLines, if_neg hb, ih (fun m => h (List.mem_cons_of_mem b m)),
      List.reverse_cons, List.append_assoc, List.append_assoc, List.append_assoc, List.cons_append,
      List.nil_append, List.cons_append]

def readLine (line : List UInt8) : Except Fault Entry := do
  Entry.ofRecord (← Json.readOctets line)

/-- The entries of a file's content, in the order of its lines. -/
def readLines (content : List UInt8) : Except Fault (List Entry) :=
  ((completeLines [] content).filter fun l => !l.all isBlankOctet).mapM readLine

def isReadFault : Fault → Bool
  | .disk _ _ | .missingKey _ | .unaware _ => true
  | .platform .malformedJson | .platform .malformedValue => true
  | .platform .undecodableOctets | .platform .unencodableText => true
  | _ => false

def readFault (path : Text) (f : Fault) : Fault := if isReadFault f then .unreadable path f else f

def entries (path : Text) (d : Disk) : Except Fault (List Entry) :=
  match d.read path >>= readLines with
  | .ok es => Ordered.sort es
  | .error f => .error (readFault path f)

def recordBytes (e : Entry) : Except Fault (List UInt8) := do
  let stamp ← Stamp.write e.createdAt
  let details ← Canonical.toJson e.details
  Canonical.encodeBytes (.map (e.recordFields details stamp))

def reading {α : Type} (path : Text) (read : List Entry → Except Fault α) : Op Files α := fun w =>
  (entries path w.disk >>= read, w)

/-- Appends a line for a draft. The id is used up even if nothing can be written. -/
def create (path : Text) (d : Draft) : Op Files Entry := fun w =>
  let e := d.withId (.text w.ids.next)
  let w := { w with ids := w.ids.take }
  match recordBytes e with
  | .error f => (.error f, w)
  | .ok bs =>
    match Disk.append path (bs ++ [newline]) w.disk with
    | (.ok _, disk) => (.ok e, { w with disk := disk })
    | (.error f, disk) => (.error (.unwritable f), { w with disk := disk })

def store (path : Text) : Store Files where
  create := create path
  findLast := reading path fun es => .ok es.getLast?
  findJustBefore := fun t => reading path (Ordered.justBefore t)
  findBetween := fun a b => reading path (Ordered.between a b)
  all := reading path .ok

def makeMissing (path : Text) : Op Disk Unit := fun d =>
  if d.holds path then (.ok (), d)
  else match Disk.spellingFault? path with
    | some f => (.error f, d)
    | none => Disk.write path [] d

/-- Makes the folders of a log, and the log itself if it is missing. -/
def openAt (path : Text) : Op Files Unit := fun w =>
  let folder := Disk.parent path
  match Disk.makeFolders (if folder.isEmpty then lit "." else folder) w.disk with
  | (.error f, disk) => (.error f, { w with disk := disk })
  | (.ok _, disk) =>
    let made := makeMissing path disk
    (made.1, { w with disk := made.2 })

end FileLog

end AuditTrail
