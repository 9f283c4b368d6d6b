import AuditTrail.Storage.Ordered
import AuditTrail.Storage.Store

/-!
# The store in memory

A list of entries in the order of their creation. Outages can be staged: each staged failure makes
the next call fail. Stored rows can be edited and removed behind the audit trail's back. A creation either
adds its entry at the end or leaves the rows as they were (`create_ok`, `create_error`).
-/

namespace AuditTrail

/-- A change of one field of a stored row. -/
inductive Edit where
  | id (v : Value)
  | eventType (v : Value)
  | source (v : Value)
  | correlationId (v : Value)
  | details (v : Value)
  | previousHash (v : Value)
  | currentHash (v : Value)
  | createdAt (t : Instant)
  /-- A change under a name of what is edited or of how it is found. -/
  | reserved
  | unknown

namespace Edit

def ofField (name : Text) (v : Value) : Edit :=
  if name = lit "id" then .id v
  else if name = lit "event_type" then .eventType v
  else if name = lit "module" then .source v
  else if name = lit "correlation_id" then .correlationId v
  else if name = lit "details" then .details v
  else if name = lit "previous_hash" then .previousHash v
  else if name = lit "current_hash" then .currentHash v
  else if name = lit "self" || name = lit "entry_id" then .reserved
  else .unknown

/-- The change is under a name that no field can have. -/
def isReserved : Edit → Bool
  | .reserved => true
  | _ => false

def apply (e : Entry) : Edit → Except Fault Entry
  | .id v => .ok { e with id := v }
  | .eventType v => .ok { e with eventType := v }
  | .source v => .ok { e with source := v }
  | .correlationId v => .ok { e with correlationId := v }
  | .details v => .ok { e with details := v }
  | .previousHash v => .ok { e with previousHash := v }
  | .currentHash v => .ok { e with currentHash := v }
  | .createdAt t => .ok { e with createdAt := t }
  | .reserved | .unknown => .error .wrongType

def applyAll (edits : List Edit) (e : Entry) : Except Fault Entry := edits.foldlM apply e

end Edit

/-- Entries in the order of their creation, and the failures of the calls to come. -/
structure Memory where
  entries : List Entry
  failures : List Fault
  createCalls : Nat
  ids : IdSource

instance : Inhabited Memory := ⟨⟨[], [], 0, default⟩⟩

namespace Memory

def empty (ids : IdSource) : Memory := ⟨[], [], 0, ids⟩

/-- A call that reads the ordered entries, unless it is staged to fail. -/
def reading {α : Type} (read : List Entry → Except Fault α) : Op Memory α := fun m =>
  match m.failures with
  | f :: later => (.error f, { m with failures := later })
  | [] =>
    match Ordered.sort m.entries with
    | .ok es => (read es, m)
    | .error f => (.error f, m)

/-- Persists a draft, unless the call is staged to fail. A row holds its own copy of the details;
the id of a draft whose details cannot be copied is used up. -/
def create (d : Draft) : Op Memory Entry := fun m =>
  let m := { m with createCalls := m.createCalls + 1 }
  match m.failures with
  | f :: later => (.error f, { m with failures := later })
  | [] =>
    let e := d.withId (.text m.ids.next)
    let m := { m with ids := m.ids.take }
    if d.details.isCopyable then (.ok e, { m with entries := m.entries ++ [e] })
    else (.error .wrongType, m)

theorem reading_entries {α : Type} (read : List Entry → Except Fault α) (m : Memory) :
    (reading read m).2.entries = m.entries := by
  rw [reading]
  cases m.failures with
  | nil => cases Ordered.sort m.entries <;> rfl
  | cons f later => rfl

theorem create_error {d : Draft} {m : Memory} {f : Fault} (h : (create d m).1 = .error f) :
    (create d m).2.entries = m.entries := by
  rw [create] at h ⊢
  cases hf : m.failures with
  | nil =>
    by_cases hc : d.details.isCopyable = true
    · simp [hf, hc] at h
    · simp [hc]
  | cons g later => rfl

/-- A creation that succeeds adds its entry behind the others. -/
theorem create_ok {d : Draft} {m : Memory} {e : Entry} (h : (create d m).1 = .ok e) :
    e = d.withId (.text m.ids.next) ∧ (create d m).2.entries = m.entries ++ [e] := by
  rw [create] at h ⊢
  cases hf : m.failures with
  | nil =>
    by_cases hc : d.details.isCopyable = true
    · simp only [hf, hc, if_true, Except.ok.injEq] at h ⊢
      exact ⟨h.symm, by rw [h]⟩
    · simp [hf, hc] at h
  | cons g later => simp [hf] at h

def store : Store Memory where
  create := create
  findLast := reading fun es => .ok es.getLast?
  findJustBefore := fun t => reading (Ordered.justBefore t)
  findBetween := fun a b => reading (Ordered.between a b)
  all := reading .ok

def failNext (count : Nat) (f : Fault) (m : Memory) : Memory :=
  { m with failures := m.failures ++ List.replicate count f }

def delete (id : Value) (m : Memory) : Memory :=
  { m with entries := m.entries.filter fun e => !e.id.same id }

/-- The rows with the first one of an id edited, and that row; none without such a row. -/
def editFirst (id : Value) (edit : Entry → Except Fault Entry) :
    List Entry → Except Fault (Entry × List Entry)
  | [] => .error (.missingKey id)
  | e :: es =>
    if e.id.same id then (edit e).map fun e' => (e', e' :: es)
    else (editFirst id edit es).map fun found => (found.1, e :: found.2)

def detached (e : Entry) : Except Fault Entry := if e.details.isCopyable then .ok e else .error .wrongType

/-- Edits the first row of an id. An edit of what the call itself is made with is refused before a
row is looked for. -/
def tamper (id : Value) (edits : List Edit) : Op Memory Entry := fun m =>
  if edits.any Edit.isReserved then (.error .wrongType, m)
  else
    match editFirst id (fun e => (Edit.applyAll edits e).bind detached) m.entries with
    | .ok (e, es) => (.ok e, { m with entries := es })
    | .error f => (.error f, m)

end Memory

end AuditTrail
