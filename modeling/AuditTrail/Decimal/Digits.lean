import AuditTrail.Text

/-!
# Decimal digits

Digits of a natural number and the number of a digit sequence. Integers are written with at most
4300 digits; a longer one has no text. A number is the number of its digits (`value_digits`), and
its digits are read up to where the text goes on without one (`spanDigits_textOfDigits`).
-/

namespace AuditTrail.Decimal

/-- Digits of a number, most significant first, in front of given digits. -/
def digitsOnto (n : Nat) (done : List Nat) : List Nat :=
  if n < 10 then n :: done else digitsOnto (n / 10) (n % 10 :: done)
termination_by n

/-- Digits of a number, most significant first; zero has one digit. -/
def digits (n : Nat) : List Nat := digitsOnto n []

def value (ds : List Nat) : Nat := ds.foldl (fun n d => 10 * n + d) 0

def textOfDigits (ds : List Nat) : Text := ds.map CodePoint.ofDigit

def ofNat (n : Nat) : Text := textOfDigits (digits n)

def ofInt (i : Int) : Text := if i < 0 then CodePoint.ofChar '-' :: ofNat i.natAbs else ofNat i.natAbs

/-- The decimal text of a natural number, filled up with zeros to a width. -/
def padded (width n : Nat) : Text := Text.padZero width (ofNat n)

def digitLimit : Nat := 4300

def firstOversized : Nat := Nat.pow 10 digitLimit

def isOversized (i : Int) : Bool := firstOversized ≤ i.natAbs

/-- The longest run of digits `0` to `9` at the front, and what follows it. -/
def spanDigits : Text → List Nat × Text
  | [] => ([], [])
  | c :: t =>
    match c.digit? with
    | some d =>
      let (ds, rest) := spanDigits t
      (d :: ds, rest)
    | none => ([], c :: t)

private theorem digitsOnto_append (n : Nat) (done : List Nat) : digitsOnto n done = digitsOnto n [] ++ done := by
  induction n using Nat.strongRecOn generalizing done with
  | ind n ih =>
    by_cases h : n < 10
    · rw [digitsOnto, if_pos h, digitsOnto, if_pos h, List.singleton_append]
    · have hlt : n / 10 < n := Nat.div_lt_self (by omega) (by decide)
      rw [digitsOnto, if_neg h, ih _ hlt, digitsOnto.eq_def n [], if_neg h, ih _ hlt [n % 10],
        List.append_assoc, List.singleton_append]

theorem digits_of_lt {n : Nat} (h : n < 10) : digits n = [n] := by
  rw [digits, digitsOnto, if_pos h]

theorem digits_of_ge {n : Nat} (h : 10 ≤ n) : digits n = digits (n / 10) ++ [n % 10] := by
  rw [digits, digitsOnto, if_neg (by omega), digitsOnto_append, digits]

theorem digits_ne_nil (n : Nat) : digits n ≠ [] := by
  by_cases h : n < 10
  · rw [digits_of_lt h]
    exact List.cons_ne_nil n []
  · rw [digits_of_ge (by omega)]
    exact List.append_ne_nil_of_right_ne_nil _ (List.cons_ne_nil _ _)

theorem lt_ten_of_mem_digits {n d : Nat} (h : d ∈ digits n) : d < 10 := by
  induction n using Nat.strongRecOn with
  | ind n ih =>
    by_cases hn : n < 10
    · rw [digits_of_lt hn, List.mem_singleton] at h
      omega
    · rw [digits_of_ge (by omega), List.mem_append, List.mem_singleton] at h
      rcases h with h | h
      · exact ih (n / 10) (Nat.div_lt_self (by omega) (by decide)) h
      · omega

theorem value_append_singleton (ds : List Nat) (d : Nat) : value (ds ++ [d]) = 10 * value ds + d := by
  rw [value, List.foldl_append, List.foldl_cons, List.foldl_nil, value]

theorem value_digits (n : Nat) : value (digits n) = n := by
  induction n using Nat.strongRecOn with
  | ind n ih =>
    by_cases h : n < 10
    · rw [digits_of_lt h, value, List.foldl_cons, List.foldl_nil]
      omega
    · rw [digits_of_ge (by omega), value_append_singleton,
        ih (n / 10) (Nat.div_lt_self (by omega) (by decide))]
      omega

theorem digits_injective {m n : Nat} (h : digits m = digits n) : m = n := by
  rw [← value_digits m, h, value_digits]

theorem spanDigits_textOfDigits {ds : List Nat} (h : ∀ d ∈ ds, d < 10) {rest : Text}
    (hr : ∀ c ∈ rest.head?, c.digit? = none) : spanDigits (textOfDigits ds ++ rest) = (ds, rest) := by
  induction ds with
  | nil =>
    cases rest with
    | nil => rfl
    | cons c t =>
      have hc : c.digit? = none := hr c rfl
      rw [textOfDigits, List.map_nil, List.nil_append, spanDigits, hc]
  | cons d ds ih =>
    have hd : (CodePoint.ofDigit d).digit? = some d := CodePoint.digit?_ofDigit (h d List.mem_cons_self)
    have hds := ih fun e he => h e (List.mem_cons_of_mem d he)
    rw [textOfDigits] at hds ⊢
    rw [List.map_cons, List.cons_append, spanDigits, hd, hds]

end AuditTrail.Decimal
