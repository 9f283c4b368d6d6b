import AuditTrail.Proofs.Decimal.Nearest
import AuditTrail.Proofs.Decimal.ShortestDigits
import Mathlib.Data.List.TakeWhile

/-!
# Shortest digits read back

The shortest digits of a finite number other than zero are read as that number (`ofDecimal_shortest`).
Whether zeros at the end of the digits are written out, or counted in the exponent, does not matter to the
reader; digits that do not start with a zero are the digits of their number (`digits_value`).
-/

namespace AuditTrail

namespace Decimal

theorem exists_eq_dropZeros (ds : List Nat) : ∃ k, ds = Binary64.dropZeros ds ++ List.replicate k 0 := by
  have hz : ∀ d ∈ ds.reverse.takeWhile (· == 0), d = 0 := by
    intro d hd
    have hb : (d == 0) = true := List.mem_takeWhile_imp (p := (· == 0)) hd
    exact eq_of_beq hb
  have hs := congrArg List.reverse (List.takeWhile_append_dropWhile (p := (· == 0)) (l := ds.reverse))
  rw [List.reverse_append, List.reverse_reverse, List.eq_replicate_of_mem hz, List.reverse_replicate] at hs
  exact ⟨_, hs.symm⟩

theorem digits_value {ds : List Nat} (hl : Leads ds) (hd : ∀ d ∈ ds, d < 10) : digits (value ds) = ds := by
  induction ds using List.reverseRecOn with
  | nil => exact absurd hl.length_pos (Nat.lt_irrefl 0)
  | append_singleton front d ih =>
    have hlast : d < 10 := hd d (List.mem_append_right _ List.mem_cons_self)
    rw [value_append_singleton]
    rcases front with _ | ⟨a, front⟩
    · show digits (10 * 0 + d) = [d]
      rw [Nat.mul_zero, Nat.zero_add, digits_of_lt hlast]
    · obtain ⟨b, rest, he, hb⟩ := hl
      obtain rfl : a = b := List.head_eq_of_cons_eq he
      have hfront : digits (value (a :: front)) = a :: front :=
        ih ⟨a, front, rfl, hb⟩ fun e hm => hd e (List.mem_append_left _ hm)
      have hpos : value (a :: front) ≠ 0 := by
        intro hz
        rw [hz, digits_of_lt (by decide)] at hfront
        exact hb (List.head_eq_of_cons_eq hfront).symm
      have hdiv : (10 * value (a :: front) + d) / 10 = value (a :: front) := by omega
      have hmod : (10 * value (a :: front) + d) % 10 = d := by omega
      rw [digits_of_ge (by omega), hdiv, hmod, hfront]

theorem value_ne_zero {ds : List Nat} (hl : Leads ds) (hd : ∀ d ∈ ds, d < 10) : value ds ≠ 0 := by
  intro hz
  have hds := digits_value hl hd
  obtain ⟨a, rest, rfl, ha⟩ := hl
  rw [hz, digits_of_lt (by decide)] at hds
  exact ha (List.head_eq_of_cons_eq hds).symm

end Decimal

namespace Binary64

open Decimal (Leads value)

variable {x : Binary64}

theorem value_dropZeros (n : Nat) (e : Int) :
    (value (dropZeros (Decimal.digits n)) : ℚ) *
      10 ^ ((Decimal.digits n).length + e - (dropZeros (Decimal.digits n)).length) = n * 10 ^ e := by
  obtain ⟨k, hk⟩ := Decimal.exists_eq_dropZeros (Decimal.digits n)
  have hn : n = value (dropZeros (Decimal.digits n)) * 10 ^ k := by
    rw [← Decimal.value_append_zeros, ← hk, Decimal.value_digits]
  have hlen : (Decimal.digits n).length = (dropZeros (Decimal.digits n)).length + k := by
    conv_lhs => rw [hk]
    rw [List.length_append, List.length_replicate]
  have he : ((Decimal.digits n).length : Int) + e - (dropZeros (Decimal.digits n)).length = k + e := by omega
  rw [he]
  conv_rhs => rw [hn]
  push_cast
  rw [zpow_add₀ (by norm_num), zpow_natCast, mul_assoc]

private theorem five_pow_ratio (s k places : Nat) :
    ((s * Nat.pow 2 k * Nat.pow 5 places : Nat) : ℚ) * 10 ^ (-(places : Int)) = s * 2 ^ ((k : Int) - places) := by
  have hten : (10 : ℚ) ^ places = 2 ^ places * 5 ^ places := by
    rw [← mul_pow]
    norm_num
  rw [zpow_neg, zpow_natCast, zpow_sub₀ (by norm_num), zpow_natCast, zpow_natCast, hten, Nat.pow_eq, Nat.pow_eq]
  push_cast
  field_simp

private theorem exactScaled_ratio (x : Binary64) : (x.exactScaled : ℚ) * 10 ^ (-1074 : Int) = x.magnitude := by
  have hleast := (isLastPlace_magnitude x).least
  unfold exactScaled
  -- The count of places becomes a variable, so that no power of it is computed.
  generalize hp : 1074 = places
  have he : (-1074 : Int) = -(places : Int) := by omega
  have hexp : x.exponent = ((x.exponent + 1074).toNat : Int) - places := by omega
  rw [magnitude, he, five_pow_ratio, ← hexp]

private theorem shortest_value (h : x.isFinite = true) (hz : x.isZero = false) :
    decimalBits (value x.shortest.digits) (x.shortest.point - x.shortest.digits.length) = x.magnitudeBits := by
  have hpos := Decimal.value_ne_zero (leads_shortest hz) fun _ => lt_ten_of_mem_shortest
  rcases shortest_cases x with ⟨n, e, hb, hs⟩ | hs
  · rw [hs] at hpos ⊢
    rw [← eq_of_beq hb]
    exact decimalBits_congr hpos (ne_zero_of_readsBack hz hb) (value_dropZeros n e)
  · rw [hs] at hpos ⊢
    have hv := value_dropZeros x.exactScaled (-1074)
    rw [exactScaled_ratio] at hv
    exact decimalBits_of_magnitude h hpos hv

/-- The shortest digits of a finite number other than zero are read as that number. -/
theorem ofDecimal_shortest (h : x.isFinite = true) (hz : x.isZero = false) :
    ofDecimal x.isNegative (value x.shortest.digits) (x.shortest.point - x.shortest.digits.length) = x := by
  rw [ofDecimal, shortest_value h hz, ofMagnitude_magnitudeBits]

end Binary64

end AuditTrail
