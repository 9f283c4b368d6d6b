/-!
# Text

A text is a list of code points. Lone surrogates are allowed, because stored records may hold
them; a text without surrogates is well formed. Texts are ordered code point by code point, which
is a total order (`le_total`, `le_trans`, `le_antisymm`), and a beginning is taken off exactly where
the text continues it (`dropFront?_eq_some_iff`).
-/

namespace AuditTrail

structure CodePoint where
  val : Nat
  isLt : val < 0x110000
deriving DecidableEq

namespace CodePoint

private theorem toNat_lt_codeSpace (c : Char) : c.toNat < 0x110000 := by
  have h := c.valid
  simp only [UInt32.isValidChar, Nat.isValidChar] at h
  rw [Char.toNat]
  omega

def ofChar (c : Char) : CodePoint := ⟨c.toNat, toNat_lt_codeSpace c⟩

/-- The code point with a number, or the replacement character outside the code space. -/
def ofNat (n : Nat) : CodePoint := if h : n < 0x110000 then ⟨n, h⟩ else ofChar '\uFFFD'

instance : Inhabited CodePoint := ⟨ofChar ' '⟩

/-- Half of a surrogate pair: a code point that no well-formed text holds. -/
def isSurrogate (c : CodePoint) : Bool := 0xD800 ≤ c.val && c.val < 0xE000

def digit? (c : CodePoint) : Option Nat :=
  if 48 ≤ c.val ∧ c.val ≤ 57 then some (c.val - 48) else none

def ofDigit (d : Nat) : CodePoint := ofNat (48 + d)

def hexDigit? (c : CodePoint) : Option Nat :=
  if 48 ≤ c.val ∧ c.val ≤ 57 then some (c.val - 48)
  else if 97 ≤ c.val ∧ c.val ≤ 102 then some (c.val - 87)
  else if 65 ≤ c.val ∧ c.val ≤ 70 then some (c.val - 55)
  else none

def ofHexDigit (d : Nat) : CodePoint := ofNat (if d < 10 then 48 + d else 87 + d)

theorem ofNat_val {n : Nat} (h : n < 0x110000) : (ofNat n).val = n := by
  rw [ofNat, dif_pos h]

theorem eq_of_val_eq {c d : CodePoint} (h : c.val = d.val) : c = d := by
  cases c
  cases d
  cases h
  rfl

private theorem isSurrogate_ofChar (c : Char) : (ofChar c).isSurrogate = false := by
  have h := c.valid
  simp only [UInt32.isValidChar, Nat.isValidChar] at h
  have hn : ¬(0xD800 ≤ c.toNat ∧ c.toNat < 0xE000) := by
    rw [Char.toNat]
    omega
  rw [isSurrogate, ofChar, ← Bool.decide_and, decide_eq_false hn]

theorem digit?_ofDigit {d : Nat} (h : d < 10) : (ofDigit d).digit? = some d := by
  have hv : (ofDigit d).val = 48 + d := ofNat_val (by omega)
  rw [digit?, hv, if_pos (by omega), Nat.add_sub_cancel_left]

end CodePoint

abbrev Text := List CodePoint

instance : LawfulBEq Text := inferInstanceAs (LawfulBEq (List CodePoint))

def lit (s : String) : Text := s.toList.map CodePoint.ofChar

namespace Text

/-- No code point is a lone surrogate. -/
def isWellFormed (t : Text) : Bool := t.all fun c => !c.isSurrogate

/-- Code point order, a proper beginning before its continuations. -/
def le : Text → Text → Bool
  | [], _ => true
  | _ :: _, [] => false
  | a :: s, b :: t => a.val < b.val || (a.val == b.val && le s t)

def dropFront? : Text → Text → Option Text
  | [], t => some t
  | _ :: _, [] => none
  | a :: s, b :: t => if a = b then dropFront? s t else none

def dropBack? (ending t : Text) : Option Text :=
  (dropFront? ending.reverse t.reverse).map List.reverse

def join (separator : Text) : List Text → Text
  | [] => []
  | [t] => t
  | t :: u :: ts => t ++ separator ++ join separator (u :: ts)

def padZero (width : Nat) (t : Text) : Text :=
  List.replicate (width - t.length) (CodePoint.ofChar '0') ++ t

def hex (width n : Nat) : Text :=
  match width with
  | 0 => []
  | w + 1 => hex w (n / 16) ++ [CodePoint.ofHexDigit (n % 16)]

/-- The part before the first occurrence of a code point, and the part after it if it occurs. -/
def cut (c : CodePoint) : Text → Text × Option Text
  | [] => ([], none)
  | a :: t =>
    if a = c then ([], some t) else
      let (before, after) := cut c t
      (a :: before, after)

theorem isWellFormed_append (s t : Text) :
    (s ++ t).isWellFormed = (s.isWellFormed && t.isWellFormed) := List.all_append

theorem isWellFormed_lit (s : String) : (lit s).isWellFormed = true := by
  rw [isWellFormed, lit, List.all_map, List.all_eq_true]
  intro c _
  exact congrArg (!·) (CodePoint.isSurrogate_ofChar c)

theorem le_refl (t : Text) : le t t = true := by
  induction t with
  | nil => rfl
  | cons a t ih => rw [le, beq_self_eq_true, ih, Bool.true_and, Bool.or_true]

theorem le_cons_iff (a b : CodePoint) (s t : Text) :
    le (a :: s) (b :: t) = true ↔ a.val < b.val ∨ (a.val = b.val ∧ le s t = true) := by
  rw [le, Bool.or_eq_true, Bool.and_eq_true, decide_eq_true_iff, beq_iff_eq]

theorem le_total (s t : Text) : (le s t || le t s) = true := by
  rw [Bool.or_eq_true]
  induction s generalizing t with
  | nil => exact .inl rfl
  | cons a s ih =>
    cases t with
    | nil => exact .inr rfl
    | cons b t =>
      rw [le_cons_iff, le_cons_iff]
      rcases Nat.lt_trichotomy a.val b.val with h | h | h
      · exact .inl (.inl h)
      · rcases ih t with hs | ht
        · exact .inl (.inr ⟨h, hs⟩)
        · exact .inr (.inr ⟨h.symm, ht⟩)
      · exact .inr (.inl h)

theorem le_trans (s t u : Text) (hst : le s t = true) (htu : le t u = true) : le s u = true := by
  induction s generalizing t u with
  | nil => rfl
  | cons a s ih =>
    cases t with
    | nil => exact absurd hst (by simp [le])
    | cons b t =>
      cases u with
      | nil => exact absurd htu (by simp [le])
      | cons c u =>
        rw [le_cons_iff] at hst htu ⊢
        rcases hst with hab | ⟨hab, hs⟩
        · rcases htu with hbc | ⟨hbc, _⟩
          · exact .inl (Nat.lt_trans hab hbc)
          · exact .inl (hbc ▸ hab)
        · rcases htu with hbc | ⟨hbc, ht⟩
          · exact .inl (hab ▸ hbc)
          · exact .inr ⟨hab.trans hbc, ih t u hs ht⟩

theorem le_antisymm (s t : Text) (hst : le s t = true) (hts : le t s = true) : s = t := by
  induction s generalizing t with
  | nil =>
    cases t with
    | nil => rfl
    | cons b t => exact absurd hts (by simp [le])
  | cons a s ih =>
    cases t with
    | nil => exact absurd hst (by simp [le])
    | cons b t =>
      rw [le_cons_iff] at hst hts
      have hab : a.val = b.val := by omega
      have hs : le s t = true := by
        rcases hst with h | h
        · omega
        · exact h.2
      have ht : le t s = true := by
        rcases hts with h | h
        · omega
        · exact h.2
      rw [CodePoint.eq_of_val_eq hab, ih t hs ht]

/-- A beginning can be taken off exactly where the text continues it. -/
theorem dropFront?_eq_some_iff {s t r : Text} : dropFront? s t = some r ↔ t = s ++ r := by
  induction s generalizing t with
  | nil => exact ⟨fun h => Option.some.inj h, fun h => congrArg some h⟩
  | cons a s ih =>
    cases t with
    | nil => exact ⟨fun h => absurd h (by simp [dropFront?]), fun h => absurd h (by simp)⟩
    | cons b t =>
      rw [dropFront?]
      by_cases hab : a = b
      · rw [if_pos hab, ih, hab, List.cons_append, List.cons.injEq]
        exact ⟨fun h => ⟨rfl, h⟩, fun h => h.2⟩
      · rw [if_neg hab, List.cons_append, List.cons.injEq]
        exact ⟨fun h => absurd h (by simp), fun h => absurd h.1.symm hab⟩

theorem dropFront?_append (s t : Text) : dropFront? s (s ++ t) = some t :=
  dropFront?_eq_some_iff.2 rfl

theorem dropBack?_eq_some_iff {s t r : Text} : dropBack? s t = some r ↔ t = r ++ s := by
  rw [dropBack?, Option.map_eq_some_iff]
  constructor
  · rintro ⟨u, hu, rfl⟩
    rw [dropFront?_eq_some_iff] at hu
    rw [← List.reverse_reverse t, hu, List.reverse_append, List.reverse_reverse]
  · rintro rfl
    refine ⟨r.reverse, ?_, List.reverse_reverse r⟩
    rw [List.reverse_append, dropFront?_append]

theorem length_hex (width n : Nat) : (hex width n).length = width := by
  induction width generalizing n with
  | zero => rfl
  | succ w ih => rw [hex, List.length_append, ih, List.length_singleton]

theorem cut_append {c : CodePoint} {s : Text} (h : c ∉ s) (t : Text) : cut c (s ++ c :: t) = (s, some t) := by
  induction s with
  | nil => rw [List.nil_append, cut, if_pos rfl]
  | cons a s ih =>
    have ha : a ≠ c := fun e => h (e ▸ List.mem_cons_self)
    have hs : c ∉ s := fun m => h (List.mem_cons_of_mem a m)
    rw [List.cons_append, cut, if_neg ha, ih hs]

end Text

end AuditTrail
