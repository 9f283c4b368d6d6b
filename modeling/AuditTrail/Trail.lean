import AuditTrail.Chain.Verify
import AuditTrail.Service
import AuditTrail.Storage.Site

/-!
# Trails

A trail is a site with several writers on it. Each writer has an appender, the store it appends to
and a gate in front of its clock. While a gate is held its writers stop before they read the clock;
after every step a writer works on until it is idle, held or stopped. Requests are known by their
number on the trail.
-/

namespace AuditTrail

/-- A clock, and whether the writers that read it are held. -/
structure Gate where
  clock : Clock
  held : Bool

/-- An appender on its store and behind its gate; with settings it is that of a service. -/
structure Writer where
  appender : Appender
  handle : Handle
  gate : Nat
  settings : Option Settings

/-- A store, and the widest range of it that may be verified. -/
structure Auditor where
  handle : Handle
  limit : Option Int

/-- A site with its writers, the store and the widest range of its verifications, and the auditor of
a service, which keeps to a store and a range of its own. -/
structure Trail where
  site : Site
  watch : Watch
  handle : Handle
  limit : Option Int
  auditor : Option Auditor
  gates : List Gate
  writers : List Writer
  tickets : List (Nat × Nat)

namespace Trail

def ofSite (site : Site) (watch : Watch) (handle : Handle) (limit : Option Int) : Trail :=
  ⟨site, watch, handle, limit, none, [], [], []⟩

/-- The trail with a service around it, which audits the trail's store as the settings say. -/
def withService (settings : Settings) (t : Trail) : Except Fault Trail :=
  settings.maxRange.map fun limit => { t with auditor := some ⟨t.handle, limit⟩ }

/-- Adds a gate with a clock; its number is the number of gates before. -/
def addGate (c : Clock) (t : Trail) : Trail := { t with gates := t.gates ++ [⟨c, false⟩] }

def addWriter (gate : Nat) (settings : Option Settings) (t : Trail) : Trail :=
  { t with writers := t.writers ++ [⟨.fresh, t.handle, gate, settings⟩] }

def afterStep (i : Nat) (w : Writer) (g : Gate) (a : Appender) (s : Scene Site) (t : Trail) : Trail :=
  { t with
    site := s.world
    watch := s.watch
    gates := t.gates.set w.gate { g with clock := s.clock }
    writers := t.writers.set i { w with appender := a } }

/-- A step of a writer, told whether it is held, after which the writer works on; none without such
a writer. -/
def step? {α : Type} (i : Nat) (act : Writer → Bool → Appender.Act Site α) (t : Trail) : Option (α × Trail) := do
  let w ← t.writers[i]?
  let g ← t.gates[w.gate]?
  let (out, a, s) := act w g.held (w.appender, ⟨t.site, g.clock, t.watch⟩)
  let (a, s) := a.settle w.handle.store g.held s
  pure (out, t.afterStep i w g a s)

def start? (i : Nat) : Trail → Option (Except Fault Unit × Trail) :=
  step? i fun w _ =>
    match w.settings with
    | some settings => Service.start settings w.handle.store
    | none => Appender.start w.handle.store

/-- Hands a request to a writer and returns its number on the trail. -/
def append? (i : Nat) (r : Request) (t : Trail) : Option (Except Fault Nat × Trail) := do
  let (out, u) ← step? i (fun _ _ => Appender.submit r) t
  match out with
  | .ok ticket => pure (.ok t.tickets.length, { u with tickets := t.tickets ++ [(i, ticket)] })
  | .error f => pure (.error f, u)

def close? (i : Nat) (timeout : Option Int) : Trail → Option (Except Fault Unit × Trail) :=
  step? i fun w held => Appender.close w.handle.store held timeout

def outcome? (n : Nat) (t : Trail) : Option Outcome := do
  let (i, ticket) ← t.tickets[n]?
  let w ← t.writers[i]?
  w.appender.outcomes[ticket]?

def cancel? (n : Nat) (t : Trail) : Option (Bool × Trail) := do
  let (i, ticket) ← t.tickets[n]?
  step? i (fun _ _ (a, s) =>
    let (taken, a) := a.cancel ticket
    (taken, a, s)) t

def setHeld (i : Nat) (held : Bool) (t : Trail) : Trail :=
  match t.writers[i]? with
  | none => t
  | some w => { t with gates := t.gates.modify w.gate fun g => { g with held := held } }

/-- Lets every writer behind a writer's gate work on. -/
def workOn (i : Nat) (t : Trail) : Trail :=
  let gate := t.writers[i]?.map Writer.gate
  (List.range t.writers.length).foldl (fun t j =>
    if t.writers[j]?.map Writer.gate = gate then
      ((step? j (fun _ _ (a, s) => ((), a, s)) t).map (·.2)).getD t
    else t) t

def hold (i : Nat) (t : Trail) : Trail := t.setHeld i true

/-- Releases the gate of a writer, and lets all writers behind it work on. -/
def release (i : Nat) (t : Trail) : Trail := (t.setHeld i false).workOn i

def onSite {α : Type} (op : Op Site α) (t : Trail) : Except Fault α × Trail :=
  let out := op t.site
  (out.1, { t with site := out.2 })

def onStore {α : Type} (op : Store Site → Op Site α) (t : Trail) : Except Fault α × Trail :=
  t.onSite (op t.handle.store)

/-- Verifies the entries between two instants: with the auditor of a service if there is one, and
else on the trail's store in a range of a limited duration. -/
def verify (limit : Option Int) (start finish : Instant) (t : Trail) : Except Fault Report × Trail :=
  let a := t.auditor.getD ⟨t.handle, limit⟩
  if a.limit.all Duration.isPossible then
    let (out, site, watch) := Verifier.verify a.handle.store a.limit start finish t.site t.watch
    (out, { t with site := site, watch := watch })
  else (.error .outOfRange, t)

/-- Opens another log file, to which reads and new writers turn. -/
def reopen (path : Text) (t : Trail) : Except Fault Unit × Trail :=
  match t.onSite (Handle.openFile path) with
  | (.ok h, t) => (.ok (), { t with handle := h })
  | (.error f, t) => (.error f, t)

end Trail

end AuditTrail
