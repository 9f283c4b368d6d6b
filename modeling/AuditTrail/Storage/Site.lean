import AuditTrail.Settings
import AuditTrail.Storage.Memory
import AuditTrail.Storage.ObjectLog

/-!
# Sites

A site is where stores live: memory, files and an object service. A handle names one store of a
site; several handles may name the same store.
-/

namespace AuditTrail

/-- The worlds of all kinds of stores. -/
structure Site where
  memory : Memory
  files : Files
  objects : Objects

instance : Inhabited Site := ⟨⟨default, default, default⟩⟩

namespace Site

/-- A site with no entries, whose stores draw on a source of ids. -/
def empty (ids : IdSource) (disk : Disk) (service : ObjectService) : Site :=
  ⟨Memory.empty ids, ⟨disk, ids⟩, ⟨service, ids⟩⟩

def onMemory {α : Type} (op : Op Memory α) : Op Site α := fun s =>
  let out := op s.memory
  (out.1, { s with memory := out.2 })

def onFiles {α : Type} (op : Op Files α) : Op Site α := fun s =>
  let out := op s.files
  (out.1, { s with files := out.2 })

def onDisk {α : Type} (op : Op Disk α) : Op Site α := onFiles fun f =>
  let out := op f.disk
  (out.1, { f with disk := out.2 })

def onObjects {α : Type} (op : Op Objects α) : Op Site α := fun s =>
  let out := op s.objects
  (out.1, { s with objects := out.2 })

def mapService (f : ObjectService → ObjectService) (s : Site) : Site :=
  { s with objects := { s.objects with service := f s.objects.service } }

end Site

/-- A store of a site. -/
inductive Handle where
  | memory
  | file (path : Text)
  | objects (log : ObjectLog)
deriving DecidableEq

namespace Handle

def store : Handle → Store Site
  | memory => Memory.store.within Site.memory fun m s => { s with memory := m }
  | file path => (FileLog.store path).within Site.files fun f s => { s with files := f }
  | objects log => log.store.within Site.objects fun o s => { s with objects := o }

def openFile (path : Text) : Op Site Handle := fun s =>
  let out := Site.onFiles (FileLog.openAt path) s
  (out.1.map fun _ => .file path, out.2)

/-- Opens a log in a bucket, unless there is no client for the service; `checked` asks for the
bucket first. -/
def openBucket (bucket folder : Text) (checked : Bool) (noClient : Option Text) : Op Site Handle := fun s =>
  match noClient with
  | some reason => (.error (.noClient reason), s)
  | none =>
    let log := ObjectLog.ofFolder bucket folder
    if checked then
      let out := Site.onObjects log.check s
      (out.1.map fun _ => .objects log, out.2)
    else (.ok (.objects log), s)

def ofSettings (settings : Settings) (noClient : Option Text) : Op Site Handle :=
  match settings.store with
  | .memory => fun s => (.ok .memory, s)
  | .file => openFile settings.logPath
  | .bucket => openBucket (settings.bucket.getD []) settings.folder true noClient

end Handle

end AuditTrail
