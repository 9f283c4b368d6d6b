import AuditTrail.Decimal.Digits
import Mathlib.Algebra.GroupWithZero.Nat

/-!
# Texts of digits

The text of digits determines the digits, and so a number, also where it is filled up with zeros to
a width (`padded_injective`). A number below a power of ten fits the width of the power
(`length_padded`).
-/

namespace AuditTrail.Decimal

theorem val_ofDigit {d : Nat} (h : d < 10) : (CodePoint.ofDigit d).val = 48 + d :=
  CodePoint.ofNat_val (by omega)

theorem val_of_mem_textOfDigits {ds : List Nat} (h : ∀ d ∈ ds, d < 10) {c : CodePoint}
    (hc : c ∈ textOfDigits ds) : 48 ≤ c.val ∧ c.val ≤ 57 := by
  obtain ⟨d, hd, rfl⟩ := List.mem_map.mp hc
  have hlt := h d hd
  rw [val_ofDigit hlt]
  omega

theorem textOfDigits_append (ds es : List Nat) :
    textOfDigits (ds ++ es) = textOfDigits ds ++ textOfDigits es := List.map_append

theorem textOfDigits_injective {ds es : List Nat} (hd : ∀ d ∈ ds, d < 10) (he : ∀ d ∈ es, d < 10)
    (h : textOfDigits ds = textOfDigits es) : ds = es := by
  have hs : spanDigits (textOfDigits ds ++ []) = (ds, []) := spanDigits_textOfDigits hd (by simp)
  rw [h, spanDigits_textOfDigits he (by simp)] at hs
  exact (congrArg Prod.fst hs).symm

theorem foldl_value (n : Nat) (ds : List Nat) :
    ds.foldl (fun n d => 10 * n + d) n = n * 10 ^ ds.length + value ds := by
  induction ds generalizing n with
  | nil => simp [value]
  | cons d ds ih =>
    rw [value, List.foldl_cons, List.foldl_cons, ih, ih (10 * 0 + d), List.length_cons, Nat.pow_succ,
      Nat.add_mul, Nat.add_mul, Nat.mul_zero, Nat.zero_mul, Nat.zero_add, Nat.add_assoc,
      Nat.mul_comm (10 ^ ds.length) 10, ← Nat.mul_assoc, Nat.mul_comm n 10]

theorem value_append (ds es : List Nat) : value (ds ++ es) = value ds * 10 ^ es.length + value es := by
  rw [value, List.foldl_append, foldl_value]
  rfl

theorem value_zeros_append (k : Nat) (ds : List Nat) : value (List.replicate k 0 ++ ds) = value ds := by
  induction k with
  | zero => rfl
  | succ k ih =>
    rw [List.replicate_succ, List.cons_append, ← ih]
    rfl

theorem value_append_zeros (ds : List Nat) (k : Nat) : value (ds ++ List.replicate k 0) = value ds * 10 ^ k := by
  have hz := value_zeros_append k []
  rw [List.append_nil] at hz
  rw [value_append, hz, List.length_replicate]
  rfl

theorem value_lt {ds : List Nat} (h : ∀ d ∈ ds, d < 10) : value ds < 10 ^ ds.length := by
  induction ds with
  | nil => exact Nat.zero_lt_one
  | cons d ds ih =>
    have hd := h d List.mem_cons_self
    have hds := ih fun e he => h e (List.mem_cons_of_mem d he)
    rw [value, List.foldl_cons, foldl_value, Nat.mul_zero, Nat.zero_add, List.length_cons, Nat.pow_succ]
    calc d * 10 ^ ds.length + value ds < d * 10 ^ ds.length + 10 ^ ds.length := Nat.add_lt_add_left hds _
      _ = (d + 1) * 10 ^ ds.length := (Nat.succ_mul d _).symm
      _ ≤ 10 * 10 ^ ds.length := Nat.mul_le_mul_right _ hd
      _ = 10 ^ ds.length * 10 := Nat.mul_comm _ _

theorem textOfDigits_zeros (k : Nat) :
    textOfDigits (List.replicate k 0) = List.replicate k (CodePoint.ofChar '0') := by
  rw [textOfDigits, List.map_replicate]
  rfl

def paddedDigits (width n : Nat) : List Nat := List.replicate (width - (digits n).length) 0 ++ digits n

theorem lt_ten_of_mem_paddedDigits {width n d : Nat} (h : d ∈ paddedDigits width n) : d < 10 := by
  rcases List.mem_append.mp h with h | h
  · rw [List.eq_of_mem_replicate h]
    decide
  · exact lt_ten_of_mem_digits h

theorem padded_eq (width n : Nat) : padded width n = textOfDigits (paddedDigits width n) := by
  have hz : CodePoint.ofDigit 0 = CodePoint.ofChar '0' := CodePoint.eq_of_val_eq rfl
  rw [padded, Text.padZero, ofNat, paddedDigits, textOfDigits, textOfDigits, List.map_append,
    List.map_replicate, List.length_map, hz]

theorem value_paddedDigits (width n : Nat) : value (paddedDigits width n) = n := by
  rw [paddedDigits, value_zeros_append, value_digits]

theorem padded_injective {width m n : Nat} (h : padded width m = padded width n) : m = n := by
  rw [padded_eq, padded_eq] at h
  have hd := textOfDigits_injective (fun _ => lt_ten_of_mem_paddedDigits)
    (fun _ => lt_ten_of_mem_paddedDigits) h
  rw [← value_paddedDigits width m, hd, value_paddedDigits]

theorem ofNat_injective {m n : Nat} (h : ofNat m = ofNat n) : m = n :=
  digits_injective (textOfDigits_injective (fun _ => lt_ten_of_mem_digits) (fun _ => lt_ten_of_mem_digits) h)

theorem length_digits_le {width n : Nat} (hw : 1 ≤ width) (h : n < 10 ^ width) :
    (digits n).length ≤ width := by
  induction width generalizing n with
  | zero => omega
  | succ width ih =>
    by_cases hn : n < 10
    · rw [digits_of_lt hn, List.length_singleton]
      omega
    · rw [digits_of_ge (by omega), List.length_append, List.length_singleton]
      have hp : n / 10 < 10 ^ width := by
        rw [Nat.div_lt_iff_lt_mul (by decide), ← Nat.pow_succ]
        exact h
      have hq : 1 ≤ width := by
        cases width with
        | zero =>
          simp only [Nat.pow_zero] at hp
          omega
        | succ k => omega
      have := ih hq hp
      omega

theorem length_paddedDigits {width n : Nat} (hw : 1 ≤ width) (h : n < 10 ^ width) :
    (paddedDigits width n).length = width := by
  have := length_digits_le hw h
  rw [paddedDigits, List.length_append, List.length_replicate]
  omega

theorem length_padded {width n : Nat} (hw : 1 ≤ width) (h : n < 10 ^ width) :
    (padded width n).length = width := by
  rw [padded_eq, textOfDigits, List.length_map, length_paddedDigits hw h]

theorem isOversized_eq_false_iff {i : Int} : isOversized i = false ↔ i.natAbs < 10 ^ digitLimit := by
  have hp : ∀ k, Nat.pow 10 k = 10 ^ k := fun _ => rfl
  rw [← hp, isOversized, decide_eq_false_iff_not, Nat.not_le]
  delta firstOversized
  exact Iff.rfl

/-- Digits of which the first is not a zero. -/
def Leads (ds : List Nat) : Prop := ∃ a rest, ds = a :: rest ∧ a ≠ 0

theorem leads_digits {n : Nat} (h : n ≠ 0) : Leads (digits n) := by
  induction n using Nat.strongRecOn with
  | ind n ih =>
    by_cases hn : n < 10
    · exact ⟨n, [], digits_of_lt hn, h⟩
    · obtain ⟨a, rest, hd, ha⟩ := ih (n / 10) (Nat.div_lt_self (by omega) (by decide)) (by omega)
      refine ⟨a, rest ++ [n % 10], ?_, ha⟩
      rw [digits_of_ge (by omega), hd, List.cons_append]

theorem Leads.length_pos {ds : List Nat} (h : Leads ds) : 0 < ds.length := by
  obtain ⟨a, rest, rfl, -⟩ := h
  exact Nat.zero_lt_succ _

end AuditTrail.Decimal
