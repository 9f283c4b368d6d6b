import AuditTrail.Fault

/-!
# The object service

Buckets hold octets under keys and list their keys in code point order, page by page. Failures can
be staged for each kind of call; every call takes the next staged answer of its kind, which may be
to go through. An object put under a key is the one got from it, and no other key is touched
(`get?_put_self`, `get?_put_of_ne`).
-/

namespace AuditTrail

abbrev Bucket := List (Text × List UInt8)

namespace Bucket

def get? (key : Text) (b : Bucket) : Option (List UInt8) := (b.find? fun o => o.1 == key).map (·.2)

def put (key : Text) (bs : List UInt8) : Bucket → Bucket
  | [] => [(key, bs)]
  | o :: rest =>
    if o.1 = key then (key, bs) :: rest
    else if Text.le key o.1 then (key, bs) :: o :: rest
    else o :: put key bs rest

def keys (b : Bucket) : List Text := b.map (·.1)

theorem get?_nil (key : Text) : get? key [] = none := rfl

private theorem get?_cons_self (key : Text) (bs : List UInt8) (b : Bucket) : get? key ((key, bs) :: b) = some bs := by
  simp [get?]

private theorem get?_cons_of_ne {key other : Text} (h : other ≠ key) (bs : List UInt8) (b : Bucket) :
    get? key ((other, bs) :: b) = get? key b := by
  simp [get?, h]

theorem get?_put_self (key : Text) (bs : List UInt8) (b : Bucket) : get? key (put key bs b) = some bs := by
  induction b with
  | nil => exact get?_cons_self key bs []
  | cons o rest ih =>
    obtain ⟨k, os⟩ := o
    rw [put]
    by_cases hk : k = key
    · rw [if_pos hk, get?_cons_self]
    · rw [if_neg hk]
      by_cases hle : Text.le key k = true
      · rw [if_pos hle, get?_cons_self]
      · rw [if_neg hle, get?_cons_of_ne hk, ih]

/-- Putting octets under one key leaves the others as they were. -/
theorem get?_put_of_ne {key other : Text} (h : other ≠ key) (bs : List UInt8) (b : Bucket) :
    get? key (put other bs b) = get? key b := by
  induction b with
  | nil => exact get?_cons_of_ne h bs []
  | cons o rest ih =>
    obtain ⟨k, os⟩ := o
    rw [put]
    by_cases hk : k = other
    · rw [if_pos hk, get?_cons_of_ne h, get?_cons_of_ne (hk ▸ h)]
    · rw [if_neg hk]
      by_cases hle : Text.le other k = true
      · rw [if_pos hle, get?_cons_of_ne h]
      · rw [if_neg hle]
        by_cases he : k = key
        · rw [he, get?_cons_self, get?_cons_self]
        · rw [get?_cons_of_ne he, get?_cons_of_ne he, ih]

theorem mem_keys_put {key k : Text} {bs : List UInt8} {b : Bucket} :
    k ∈ keys (put key bs b) ↔ k = key ∨ k ∈ keys b := by
  induction b with
  | nil => simp [put, keys]
  | cons o rest ih =>
    rw [put]
    by_cases hk : o.1 = key
    · rw [if_pos hk]
      simp [keys, hk]
    · rw [if_neg hk]
      by_cases hle : Text.le key o.1 = true
      · rw [if_pos hle]
        simp [keys]
      · rw [if_neg hle]
        have hc : ∀ c : Bucket, k ∈ keys (o :: c) ↔ k = o.1 ∨ k ∈ keys c := fun c => by simp [keys]
        rw [hc, hc, ih]
        exact or_left_comm

end Bucket

inductive StagedFault where
  | answered (reply : Option (Text × Text))
  | unreachable (url : Text)
  | other (text : Text)
deriving DecidableEq

/-- A call of the service failed, or something around it did. -/
inductive CallFault where
  | service (f : RemoteFault)
  | host (f : Fault)

def StagedFault.toCallFault (call : RemoteCall) : StagedFault → CallFault
  | .answered reply => .service (.answered call reply)
  | .unreachable url => .service (.unreachable url)
  | .other text => .host (.host .runtime text)

/-- The service that keeps the buckets: these by name, the staged answers of each kind of call, and the size of a
listing's page.

The service itself is no part of the audit trail, and this is what is assumed of it. A put happens as a whole, or fails
and changes nothing; every later call sees it, and it touches no other key (`Bucket.get?_put_self`,
`Bucket.get?_put_of_ne`). A listing shows the keys of one moment, in code point order, on pages of a fixed size, and
nobody puts or erases an object between two of its pages. No key is refused, however long it is. Anything else that a
call may answer is staged. -/
structure ObjectService where
  buckets : List (Text × Bucket)
  staged : RemoteCall → List (Option StagedFault)
  pageSize : Nat

instance : Inhabited ObjectService := ⟨⟨[], fun _ => [], 1000⟩⟩

namespace ObjectService

def takeStaged (call : RemoteCall) (s : ObjectService) : Option StagedFault × ObjectService :=
  match s.staged call with
  | [] => (none, s)
  | f :: later => (f, { s with staged := fun c => if c = call then later else s.staged c })

def bucket? (name : Text) (s : ObjectService) : Option Bucket :=
  (s.buckets.find? fun b => b.1 == name).map (·.2)

def setBucket (name : Text) (b : Bucket) (s : ObjectService) : ObjectService :=
  { s with buckets := s.buckets.map fun c => if c.1 = name then (name, b) else c }

def noBucket (call : RemoteCall) : CallFault :=
  .service (.answered call (some (
    if call = .headBucket then (lit "404", lit "Not Found")
    else (lit "NoSuchBucket", lit "The specified bucket does not exist"))))

def noKey : CallFault :=
  .service (.answered .getObject (some (lit "NoSuchKey", lit "The specified key does not exist.")))

def call {α : Type} (kind : RemoteCall) (name : Text) (run : Bucket → Except CallFault α × Bucket)
    (s : ObjectService) : Except CallFault α × ObjectService :=
  match takeStaged kind s with
  | (some f, s) => (.error (StagedFault.toCallFault kind f), s)
  | (none, s) =>
    match s.bucket? name with
    | none => (.error (noBucket kind), s)
    | some b =>
      let out := run b
      (out.1, s.setBucket name out.2)

def head (name : Text) (s : ObjectService) : Except CallFault Unit × ObjectService :=
  call .headBucket name (fun b => (.ok (), b)) s

def put (name key : Text) (bs : List UInt8) (s : ObjectService) : Except CallFault Unit × ObjectService :=
  call .putObject name (fun b => (.ok (), b.put key bs)) s

def get (name key : Text) (s : ObjectService) : Except CallFault (List UInt8) × ObjectService :=
  call .getObject name (fun b =>
    match b.get? key with
    | some bs => (.ok bs, b)
    | none => (.error noKey, b)) s

def keysUnder (folder : Text) (b : Bucket) : List Text :=
  b.keys.filter fun k => (Text.dropFront? folder k).isSome

def pageCount (pageSize n : Nat) : Nat := max 1 ((n + pageSize - 1) / pageSize)

/-- So many pages of the keys with a common beginning, from the one with the given keys on. -/
def pages (name folder : Text) : Nat → List Text → ObjectService → Except CallFault (List Text) × ObjectService
  | 0, _, s => (.ok [], s)
  | n + 1, left, s =>
    match call .listObjects name (fun b => (.ok (left.take s.pageSize), b)) s with
    | (.error f, s) => (.error f, s)
    | (.ok page, s) =>
      let rest := pages name folder n (left.drop s.pageSize) s
      (rest.1.map (page ++ ·), rest.2)

def list (name folder : Text) (s : ObjectService) : Except CallFault (List Text) × ObjectService :=
  let keys := ((s.bucket? name).map (keysUnder folder)).getD []
  pages name folder (pageCount s.pageSize keys.length) keys s

end ObjectService

end AuditTrail
