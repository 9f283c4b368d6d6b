import AuditTrail.Fault
import AuditTrail.Text.Utf8

/-!
# Files

A tree of folders and files. A path is walked part by part between its slashes, from the root if it
begins with one and from the working folder otherwise; every part is looked up in a folder, and the
whole walk fails at the first part that cannot be. Names and paths are limited in their octets.

What is written to a file is read from it again (`read_write`, `read_append`).
-/

namespace AuditTrail

inductive Node where
  | folder
  | file (content : List UInt8)
deriving DecidableEq

/-- The steps from the working folder, or from the root marked by a slash, to a place. -/
abbrev Place := List Text

/-- Folders and files by their place. -/
structure Disk where
  nodes : List (Place × Node)

instance : Inhabited Disk := ⟨⟨[]⟩⟩

namespace Disk

def slash : CodePoint := CodePoint.ofChar '/'

def splitPath : Text → List Text
  | [] => [[]]
  | c :: t =>
    if c = slash then [] :: splitPath t
    else match splitPath t with
      | [] => [[c]]
      | p :: ps => (c :: p) :: ps

def parts (path : Text) : List Text := (splitPath path).filter fun s => !s.isEmpty

def start (path : Text) : Place := if path.head? = some slash then [[slash]] else []

def namesFolder (path : Text) : Bool := path.getLast? == some slash

/-- A surrogate that stands for an octet which is no part of a character. -/
def isStrayOctet (c : CodePoint) : Bool := 0xDC80 ≤ c.val && c.val ≤ 0xDCFF

def octetCount (t : Text) : Nat :=
  (t.map fun c => if isStrayOctet c then 1 else (Utf8.ofCodePoint c).length).foldl (· + ·) 0

def nameLimit : Nat := 255

def pathLimit : Nat := 4095

/-- Why a text cannot be a path: it has no octets, or holds the octet that ends a path. -/
def spellingFault? (path : Text) : Option Fault :=
  if path.any fun c => c.isSurrogate && !isStrayOctet c then some (.platform .unencodableText)
  else if path.any fun c => c.val == 0 then some (.platform .malformedValue)
  else none

/-- What a place holds; the working folder and the root are always there. -/
def at? (d : Disk) (p : Place) : Option Node :=
  if p = [] ∨ p = [[slash]] then some .folder else (d.nodes.find? fun n => n.1 == p).map (·.2)

def put (d : Disk) (p : Place) (n : Node) : Disk := ⟨(p, n) :: d.nodes.filter fun m => m.1 != p⟩

private theorem at?_put_self {p : Place} (h : ¬(p = [] ∨ p = [[slash]])) (d : Disk) (n : Node) :
    (d.put p n).at? p = some n := by
  rw [at?, if_neg h]
  simp [put]

private theorem at?_put_of_ne {p q : Place} (h : p ≠ q) (d : Disk) (n : Node) : (d.put p n).at? q = d.at? q := by
  rw [at?, at?]
  by_cases hq : q = [] ∨ q = [[slash]]
  · rw [if_pos hq, if_pos hq]
  · have hf : (fun m : Place × Node => decide ((m.1 != p) = true ∧ (m.1 == q) = true)) =
        fun m => m.1 == q := by
      funext m
      by_cases hm : m.1 = q
      · simp [hm, Ne.symm h]
      · simp [hm]
    rw [if_neg hq, if_neg hq, put, List.find?_cons_of_neg (by simp [h]), List.find?_filter, hf]

/-- The place above; the working folder and the root have none. -/
def above (p : Place) : Place := if p = [[slash]] then p else p.dropLast

/-- Walks on from a place part by part. Only the last part may be missing. -/
def walk (d : Disk) : Place → List Text → Except DiskFault Place
  | here, [] => .ok here
  | here, s :: rest =>
    match d.at? here with
    | none => .error .missing
    | some (.file _) => .error .notAFolder
    | some .folder =>
      if s = lit "." then d.walk here rest
      else if s = lit ".." then d.walk (above here) rest
      else if nameLimit < octetCount s then .error .nameTooLong
      else d.walk (here ++ [s]) rest

/-- The place that a path names, which may hold nothing yet. -/
def place (d : Disk) (path : Text) : Except DiskFault Place :=
  if path.isEmpty then .error .missing
  else if pathLimit < octetCount path then .error .nameTooLong
  else d.walk (start path) (parts path)

/-- What is put at the end of a walk does not matter to the walk, unless a folder was there. -/
private theorem walk_put {d : Disk} {p : Place} (n : Node) (hp : d.at? p ≠ some .folder) {here : Place}
    {steps : List Text} (h : d.walk here steps = .ok p) : (d.put p n).walk here steps = .ok p := by
  induction steps generalizing here with
  | nil => exact h
  | cons s rest ih =>
    rw [walk] at h ⊢
    cases hh : d.at? here with
    | none => simp [hh] at h
    | some node =>
      cases node with
      | file content => simp [hh] at h
      | folder =>
        have hne : p ≠ here := fun e => hp (e ▸ hh)
        rw [at?_put_of_ne hne]
        simp only [hh] at h ⊢
        by_cases h1 : s = lit "."
        · rw [if_pos h1] at h ⊢
          exact ih h
        · rw [if_neg h1] at h ⊢
          by_cases h2 : s = lit ".."
          · rw [if_pos h2] at h ⊢
            exact ih h
          · rw [if_neg h2] at h ⊢
            by_cases h3 : nameLimit < octetCount s
            · simp [h3] at h
            · rw [if_neg h3] at h ⊢
              exact ih h

/-- The path names the same place after something was put there that replaces no folder. -/
private theorem place_put {d : Disk} {p : Place} {path : Text} (n : Node) (hp : d.at? p ≠ some .folder)
    (h : d.place path = .ok p) : (d.put p n).place path = .ok p := by
  rw [place] at h ⊢
  by_cases h1 : path.isEmpty = true
  · simp [h1] at h
  · rw [if_neg h1] at h ⊢
    by_cases h2 : pathLimit < octetCount path
    · simp [h2] at h
    · rw [if_neg h2] at h ⊢
      exact walk_put n hp h

def look (d : Disk) (path : Text) : Except DiskFault Node :=
  match d.place path with
  | .error f => .error f
  | .ok p =>
    match d.at? p with
    | none => .error .missing
    | some (.file content) => if namesFolder path then .error .notAFolder else .ok (.file content)
    | some .folder => .ok .folder

def holds (d : Disk) (path : Text) : Bool :=
  match spellingFault? path, d.look path with
  | none, .ok _ => true
  | _, _ => false

def holdsFolder (d : Disk) (path : Text) : Bool :=
  match spellingFault? path, d.look path with
  | none, .ok .folder => true
  | _, _ => false

def read (d : Disk) (path : Text) : Except Fault (List UInt8) :=
  match d.look path with
  | .ok (.file content) => .ok content
  | .ok .folder => .error (.disk .isAFolder path)
  | .error f => .error (.disk f path)

/-- Changes the content of a file, which is made empty first if it is missing. -/
def change (path : Text) (f : List UInt8 → List UInt8) : Op Disk Unit := fun d =>
  match d.place path with
  | .error g => (.error (.disk g path), d)
  | .ok p =>
    if namesFolder path then (.error (.disk .isAFolder path), d)
    else match d.at? p with
      | some .folder => (.error (.disk .isAFolder path), d)
      | some (.file content) => (.ok (), d.put p (.file (f content)))
      | none => (.ok (), d.put p (.file (f [])))

def append (path : Text) (bs : List UInt8) : Op Disk Unit := change path (· ++ bs)

def write (path : Text) (bs : List UInt8) : Op Disk Unit := change path fun _ => bs

private theorem read_put {d : Disk} {p : Place} {path : Text} {bs : List UInt8} (h : d.place path = .ok p)
    (hp : d.at? p ≠ some .folder) (hn : namesFolder path = false) :
    (d.put p (.file bs)).read path = .ok bs := by
  have hr : ¬(p = [] ∨ p = [[slash]]) := fun e => hp (by rw [at?, if_pos e])
  rw [read, look, place_put (.file bs) hp h]
  simp only [at?_put_self hr, hn, Bool.false_eq_true, if_false]

theorem read_write {d : Disk} {path : Text} {bs : List UInt8} (h : (write path bs d).1 = .ok ()) :
    (write path bs d).2.read path = .ok bs := by
  rw [write, change] at h ⊢
  cases hp : d.place path with
  | error g => simp [hp] at h
  | ok p =>
    simp only [hp] at h ⊢
    by_cases hn : namesFolder path = true
    · simp [hn] at h
    · rw [if_neg hn] at h ⊢
      have hn' : namesFolder path = false := Bool.eq_false_iff.2 hn
      cases ha : d.at? p with
      | none => exact read_put hp (by simp [ha]) hn'
      | some node =>
        cases node with
        | folder => simp [ha] at h
        | file content => exact read_put hp (by simp [ha]) hn'

/-- What was put at the end of a file is read behind what was there before. -/
theorem read_append {d : Disk} {path : Text} {content : List UInt8} (h : d.read path = .ok content)
    (bs : List UInt8) : ∃ d', append path bs d = (.ok (), d') ∧ d'.read path = .ok (content ++ bs) := by
  rw [read, look] at h
  cases hp : d.place path with
  | error g => simp [hp] at h
  | ok p =>
    cases ha : d.at? p with
    | none => simp [hp, ha] at h
    | some node =>
      cases node with
      | folder => simp [hp, ha] at h
      | file old =>
        by_cases hn : namesFolder path = true
        · simp [hp, ha, hn] at h
        · simp only [hp, ha, hn, Bool.false_eq_true, if_false, Except.ok.injEq] at h
          subst h
          refine ⟨d.put p (.file (old ++ bs)), ?_, read_put hp (by simp [ha]) (Bool.eq_false_iff.2 hn)⟩
          simp only [append, change, hp, ha, hn, Bool.false_eq_true, if_false]

/-- A path before its last slash without the slashes at its end, and what follows that slash. A
path of slashes alone keeps them. -/
def splitLast (path : Text) : Text × Text :=
  let upTo := (path.reverse.dropWhile (· != slash)).reverse
  let bare := (upTo.reverse.dropWhile (· == slash)).reverse
  (if bare.isEmpty then upTo else bare, (path.reverse.takeWhile (· != slash)).reverse)

def parent (path : Text) : Text := (splitLast path).1

/-- Makes a folder where nothing is; a folder may be there already. -/
def makeFolder (path : Text) : Op Disk Unit := fun d =>
  match spellingFault? path with
  | some f => (.error f, d)
  | none =>
    let made : Except DiskFault Disk :=
      match d.place path with
      | .error f => .error f
      | .ok p => if (d.at? p).isSome then .error .fileExists else .ok (d.put p .folder)
    match made with
    | .ok d' => (.ok (), d')
    | .error f => if d.holdsFolder path then (.ok (), d) else (.error (.disk f path), d)

def splitFolder (path : Text) : Text × Text :=
  let (front, last) := splitLast path
  if last.isEmpty then splitLast front else (front, last)

/-- Makes a folder after so many folders above it as are missing. -/
def makeFoldersUpTo : Nat → Text → Op Disk Unit
  | 0, path => makeFolder path
  | depth + 1, path => fun d =>
    let (front, last) := splitFolder path
    if front.isEmpty || last.isEmpty || d.holds front then makeFolder path d
    else
      let goOn (d : Disk) : Except Fault Unit × Disk :=
        if last = lit "." then (.ok (), d) else makeFolder path d
      match makeFoldersUpTo depth front d with
      | (.ok _, d) | (.error (.disk .fileExists _), d) => goOn d
      | (.error f, d) => (.error f, d)

/-- Makes a folder and all folders above it; folders may be there already. -/
def makeFolders (path : Text) : Op Disk Unit := makeFoldersUpTo path.length path

end Disk

end AuditTrail
