import AuditTrail.Decimal.Binary64
import Mathlib.Algebra.Order.Field.Power
import Mathlib.Algebra.Order.Field.Rat
import Mathlib.Tactic.FieldSimp
import Mathlib.Tactic.Linarith
import Mathlib.Tactic.Positivity
import Mathlib.Tactic.Ring

/-!
# The number nearest to a fraction

Rounding a fraction to a floating point number sees its value only, not how it is written
(`nearestBits_congr`), and the value of a finite number is rounded to that number
(`nearestBits_of_magnitude`). The same holds of a decimal, however far its exponent lies
(`decimalBits_congr`, `decimalBits_of_magnitude`).
-/

namespace AuditTrail.Binary64

variable {num den : Nat} {q : ℚ} {e : Int}

private theorem two_zpow_le {a b : Int} (h : a ≤ b) : (2 : ℚ) ^ a ≤ 2 ^ b := zpow_le_zpow_right₀ (by norm_num) h

private theorem lt_of_two_zpow_lt {a b : Int} (h : (2 : ℚ) ^ a < 2 ^ b) : a < b :=
  (zpow_lt_zpow_iff_right₀ (by norm_num)).mp h

private theorem ratio_lt (num : Nat) (hd : den ≠ 0) : (num : ℚ) / den < 2 ^ ((num.log2 : Int) - den.log2 + 1) := by
  have hden : (0 : ℚ) < den := by exact_mod_cast Nat.pos_of_ne_zero hd
  have h1 : (num : ℚ) < 2 ^ (num.log2 + 1) := by exact_mod_cast Nat.lt_log2_self (n := num)
  have h2 : (2 : ℚ) ^ den.log2 ≤ den := by exact_mod_cast Nat.log2_self_le hd
  rw [div_lt_iff₀ hden, sub_add_eq_add_sub, zpow_sub₀ (by norm_num), ← Nat.cast_succ, zpow_natCast, zpow_natCast]
  calc (num : ℚ) < 2 ^ (num.log2 + 1) := h1
    _ = 2 ^ (num.log2 + 1) / 2 ^ den.log2 * 2 ^ den.log2 := by field_simp
    _ ≤ 2 ^ (num.log2 + 1) / 2 ^ den.log2 * den := by gcongr

private theorem lt_ratio (hn : num ≠ 0) (hd : den ≠ 0) : 2 ^ ((num.log2 : Int) - den.log2 - 1) < (num : ℚ) / den := by
  have hden : (0 : ℚ) < den := by exact_mod_cast Nat.pos_of_ne_zero hd
  have h1 : (2 : ℚ) ^ num.log2 ≤ num := by exact_mod_cast Nat.log2_self_le hn
  have h2 : (den : ℚ) < 2 ^ (den.log2 + 1) := by exact_mod_cast Nat.lt_log2_self (n := den)
  rw [lt_div_iff₀ hden, sub_sub, zpow_sub₀ (by norm_num), ← Nat.cast_succ, zpow_natCast, zpow_natCast]
  calc (2 : ℚ) ^ num.log2 / 2 ^ (den.log2 + 1) * den
      < 2 ^ num.log2 / 2 ^ (den.log2 + 1) * 2 ^ (den.log2 + 1) := by gcongr
    _ = 2 ^ num.log2 := by field_simp
    _ ≤ num := h1

private theorem scaled_ratio (num : Nat) (hd : den ≠ 0) (e : Int) :
    (scaled num den e).2 ≠ 0 ∧
      ((scaled num den e).1 : ℚ) / (scaled num den e).2 = (num : ℚ) / den * 2 ^ (-e) := by
  have h2 : ∀ k, Nat.pow 2 k = 2 ^ k := fun _ => rfl
  rw [scaled]
  by_cases he : 0 ≤ e
  · obtain ⟨k, rfl⟩ := Int.eq_ofNat_of_zero_le he
    rw [if_pos he, Int.toNat_natCast, h2]
    refine ⟨Nat.mul_ne_zero hd (Nat.pow_pos (by decide)).ne', ?_⟩
    push_cast
    rw [zpow_neg, zpow_natCast, ← div_eq_mul_inv, div_div]
  · obtain ⟨k, hk⟩ : ∃ k : Nat, -e = k := ⟨(-e).toNat, by omega⟩
    rw [if_neg he, hk, Int.toNat_natCast, h2]
    refine ⟨hd, ?_⟩
    push_cast
    rw [zpow_natCast, div_mul_eq_mul_div]

private theorem scaled_div_lt_iff (hd : den ≠ 0) (e : Int) :
    (scaled num den e).1 / (scaled num den e).2 < Nat.pow 2 52 ↔ (num : ℚ) / den < 2 ^ (e + 52) := by
  obtain ⟨hb, hr⟩ := scaled_ratio num hd e
  have hpos : (0 : ℚ) < (scaled num den e).2 := by exact_mod_cast Nat.pos_of_ne_zero hb
  have hp : (0 : ℚ) < 2 ^ e := by positivity
  have hcast : (scaled num den e).1 / (scaled num den e).2 < Nat.pow 2 52 ↔
      ((scaled num den e).1 : ℚ) / (scaled num den e).2 < 2 ^ (52 : Int) := by
    rw [Nat.div_lt_iff_lt_mul (Nat.pos_of_ne_zero hb), div_lt_iff₀ hpos, Nat.pow_eq]
    exact_mod_cast Iff.rfl
  rw [hcast, hr, zpow_neg, ← div_eq_mul_inv, div_lt_iff₀ hp, ← zpow_add₀ (by norm_num), add_comm]

/-- The last place of a number is where its fifty-third binary digit stands, but never below the last
place of the least number. -/
structure IsLastPlace (q : ℚ) (e : Int) : Prop where
  least : -1074 ≤ e
  below : q < 2 ^ (e + 53)
  above : e = -1074 ∨ 2 ^ (e + 52) ≤ q

private theorem IsLastPlace.unique {f : Int} (he : IsLastPlace q e) (hf : IsLastPlace q f) : e = f := by
  have h1 := he.least
  have h2 := hf.least
  have hef : e ≤ f := by
    rcases he.above with ha | ha
    · omega
    · have := lt_of_two_zpow_lt (lt_of_le_of_lt ha hf.below)
      omega
  have hfe : f ≤ e := by
    rcases hf.above with ha | ha
    · omega
    · have := lt_of_two_zpow_lt (lt_of_le_of_lt ha he.below)
      omega
  omega

private theorem isLastPlace_lastPlace (hn : num ≠ 0) (hd : den ≠ 0) :
    IsLastPlace ((num : ℚ) / den) (lastPlace num den) := by
  have hupper := ratio_lt num hd
  have hlower := lt_ratio hn hd
  obtain ⟨e, he⟩ : ∃ e, e = max ((num.log2 : Int) - den.log2 - 52) (-1074) := ⟨_, rfl⟩
  have hplace : lastPlace num den =
      if (num : ℚ) / den < 2 ^ (e + 52) ∧ -1074 < e then e - 1 else e := by
    rw [lastPlace, ← he]
    simp only [scaled_div_lt_iff hd]
  rw [hplace]
  by_cases hc : (num : ℚ) / den < 2 ^ (e + 52) ∧ -1074 < e
  · rw [if_pos hc]
    have hb : e - 1 + 53 = e + 52 := by omega
    exact ⟨by omega, hb ▸ hc.1, .inr (le_trans (two_zpow_le (by omega)) hlower.le)⟩
  · rw [if_neg hc]
    refine ⟨by omega, lt_of_lt_of_le hupper (two_zpow_le (by omega)), ?_⟩
    by_cases hgt : -1074 < e
    · exact .inr (not_lt.mp fun h => hc ⟨h, hgt⟩)
    · exact .inl (by omega)

private theorem lastPlace_eq_iff (hn : num ≠ 0) (hd : den ≠ 0) :
    lastPlace num den = e ↔ IsLastPlace ((num : ℚ) / den) e :=
  ⟨fun h => h ▸ isLastPlace_lastPlace hn hd, fun h => (isLastPlace_lastPlace hn hd).unique h⟩

private theorem roundEven_scale {c : Nat} (hc : c ≠ 0) (a b : Nat) : roundEven (a * c) (b * c) = roundEven a b := by
  have hpos := Nat.pos_of_ne_zero hc
  have hlt : ∀ r, 2 * (r * c) < b * c ↔ 2 * r < b := fun r => by
    rw [← Nat.mul_assoc, Nat.mul_lt_mul_right hpos]
  have hgt : ∀ r, b * c < 2 * (r * c) ↔ b < 2 * r := fun r => by
    rw [← Nat.mul_assoc, Nat.mul_lt_mul_right hpos]
  simp only [roundEven, Nat.mul_div_mul_right _ _ hpos, Nat.mul_mod_mul_right, hlt, hgt]

private theorem scaled_scale (c : Nat) (e : Int) :
    scaled (num * c) (den * c) e = ((scaled num den e).1 * c, (scaled num den e).2 * c) := by
  rw [scaled, scaled]
  split
  · rw [Nat.mul_right_comm]
  · rw [Nat.mul_right_comm]

private theorem nearestBits_scale {c : Nat} (hc : c ≠ 0) (hd : den ≠ 0) :
    nearestBits (num * c) (den * c) = nearestBits num den := by
  by_cases hn : num = 0
  · rw [hn, Nat.zero_mul, nearestBits, nearestBits, if_pos rfl, if_pos rfl]
  have hratio : ((num * c : Nat) : ℚ) / (den * c : Nat) = (num : ℚ) / den := by
    have : (c : ℚ) ≠ 0 := by exact_mod_cast hc
    push_cast
    field_simp
  have hplace : lastPlace (num * c) (den * c) = lastPlace num den := by
    rw [lastPlace_eq_iff (Nat.mul_ne_zero hn hc) (Nat.mul_ne_zero hd hc), hratio]
    exact isLastPlace_lastPlace hn hd
  rw [nearestBits, nearestBits, if_neg hn, if_neg (Nat.mul_ne_zero hn hc), hplace]
  dsimp only
  rw [scaled_scale, roundEven_scale hc]

/-- Fractions of one value are rounded alike. -/
theorem nearestBits_congr {num' den' : Nat} (hd : den ≠ 0) (hd' : den' ≠ 0)
    (h : (num : ℚ) / den = (num' : ℚ) / den') : nearestBits num den = nearestBits num' den' := by
  have hden : (den : ℚ) ≠ 0 := by exact_mod_cast hd
  have hden' : (den' : ℚ) ≠ 0 := by exact_mod_cast hd'
  have hcross : num * den' = num' * den := by
    rw [div_eq_div_iff hden hden'] at h
    exact_mod_cast h
  rw [← nearestBits_scale hd' hd, hcross, Nat.mul_comm den den', nearestBits_scale hd hd']

private theorem roundEven_mul_self {b : Nat} (hb : b ≠ 0) (s : Nat) : roundEven (s * b) b = s := by
  have hpos := Nat.pos_of_ne_zero hb
  have hlt : 2 * 0 < b := by omega
  simp only [roundEven, Nat.mul_div_cancel _ hpos, Nat.mul_mod_left, hlt, if_true]

private theorem roundEven_of_lt_half {a b : Nat} (h : 2 * a < b) : roundEven a b = 0 := by
  simp only [roundEven, Nat.div_eq_of_lt (show a < b by omega), Nat.mod_eq_of_lt (show a < b by omega), h, if_true]

def magnitude (x : Binary64) : ℚ := x.significand * 2 ^ x.exponent

variable {x : Binary64}

theorem magnitudeBits_eq (x : Binary64) : x.magnitudeBits = x.exponentField * 2 ^ 52 + x.fraction := by
  simp only [exponentField, fraction, Nat.pow_eq]
  omega

theorem isLastPlace_magnitude (x : Binary64) : IsLastPlace x.magnitude x.exponent := by
  have hf : x.fraction < 2 ^ 52 := Nat.mod_lt _ (Nat.pow_pos (by decide))
  have hp : (0 : ℚ) < 2 ^ x.exponent := by positivity
  have hlt : ∀ {s k : Nat}, s < 2 ^ k → (s : ℚ) * 2 ^ x.exponent < 2 ^ (x.exponent + k) := by
    intro s k hs
    have hc : (s : ℚ) < 2 ^ k := by exact_mod_cast hs
    rw [zpow_add₀ (by norm_num), mul_comm, zpow_natCast]
    gcongr
  rw [magnitude]
  by_cases he : x.exponentField = 0
  · have hs : x.significand = x.fraction := by rw [significand, if_pos he]
    have hx : x.exponent = -1074 := by rw [exponent, if_pos he]; rfl
    refine ⟨hx.ge, hs ▸ hlt (k := 53) ?_, .inl hx⟩
    omega
  · have hs : x.significand = x.fraction + 2 ^ 52 := by rw [significand, if_neg he, Nat.pow_eq]
    have hx : x.exponent = x.exponentField - 1075 := by rw [exponent, if_neg he]
    refine ⟨by omega, hlt (k := 53) (by omega), .inr ?_⟩
    have hc : (2 : ℚ) ^ 52 ≤ x.significand := by
      rw [hs]
      push_cast
      linarith [(Nat.cast_nonneg x.fraction : (0 : ℚ) ≤ x.fraction)]
    have h52 : x.exponent + 52 = x.exponent + (52 : Nat) := rfl
    rw [h52, zpow_add₀ (by norm_num), mul_comm, zpow_natCast]
    gcongr

/-- A fraction with the value of a finite number is rounded to that number. -/
theorem nearestBits_of_magnitude (hx : x.isFinite = true) (hn : num ≠ 0) (hd : den ≠ 0)
    (h : (num : ℚ) / den = x.magnitude) : nearestBits num den = x.magnitudeBits := by
  have hplace : lastPlace num den = x.exponent := by
    rw [lastPlace_eq_iff hn hd, h]
    exact isLastPlace_magnitude x
  obtain ⟨hb, hr⟩ := scaled_ratio num hd x.exponent
  have hbq : ((scaled num den x.exponent).2 : ℚ) ≠ 0 := by exact_mod_cast hb
  have hs : (scaled num den x.exponent).1 = x.significand * (scaled num den x.exponent).2 := by
    rw [h, magnitude, mul_assoc, ← zpow_add₀ (by norm_num), add_neg_cancel, zpow_zero, mul_one, div_eq_iff hbq] at hr
    exact_mod_cast hr
  have hfield : x.exponentField < 2047 := of_decide_eq_true hx
  have hbits := magnitudeBits_eq x
  have hf : x.fraction < 2 ^ 52 := Nat.mod_lt _ (Nat.pow_pos (by decide))
  have hfinite : (x.exponent + 1074).toNat * 2 ^ 52 + x.significand = x.magnitudeBits := by
    by_cases he : x.exponentField = 0
    · rw [exponent, significand, if_pos he, if_pos he, hbits, he]
      omega
    · rw [exponent, significand, if_neg he, if_neg he, hbits, Nat.pow_eq]
      omega
  rw [nearestBits, if_neg hn, hplace]
  dsimp only
  rw [hs, roundEven_mul_self hb, Nat.pow_eq, hfinite, infinityBits, Nat.pow_eq]
  omega

private theorem nearestBits_of_huge (hn : num ≠ 0) (hd : den ≠ 0) (h : 2 ^ (1025 : Int) ≤ (num : ℚ) / den) :
    nearestBits num den = infinityBits := by
  have hplace := lt_of_two_zpow_lt (lt_of_le_of_lt h (isLastPlace_lastPlace hn hd).below)
  rw [nearestBits, if_neg hn]
  dsimp only
  rw [infinityBits, Nat.pow_eq]
  omega

private theorem nearestBits_of_tiny (hd : den ≠ 0) (h : (num : ℚ) / den ≤ 2 ^ (-1076 : Int)) :
    nearestBits num den = 0 := by
  by_cases hn : num = 0
  · rw [nearestBits, if_pos hn]
  have hl := isLastPlace_lastPlace hn hd
  have hplace : lastPlace num den = -1074 := by
    rcases hl.above with ha | ha
    · exact ha
    · have hle := (zpow_le_zpow_iff_right₀ (by norm_num : (1 : ℚ) < 2)).mp (le_trans ha h)
      have := hl.least
      omega
  obtain ⟨hb, hr⟩ := scaled_ratio num hd (-1074)
  have hpos := Nat.pos_of_ne_zero hb
  have hbq : (0 : ℚ) < (scaled num den (-1074)).2 := by exact_mod_cast hpos
  have hquarter : ((scaled num den (-1074)).1 : ℚ) / (scaled num den (-1074)).2 ≤ 2 ^ (-2 : Int) := by
    calc _ = (num : ℚ) / den * 2 ^ (-(-1074) : Int) := hr
      _ ≤ 2 ^ (-1076 : Int) * 2 ^ (-(-1074) : Int) := by gcongr
      _ = 2 ^ (-2 : Int) := (zpow_add₀ (by norm_num) _ _).symm
  have hfew : 4 * (scaled num den (-1074)).1 ≤ (scaled num den (-1074)).2 := by
    rw [div_le_iff₀ hbq, show (2 : ℚ) ^ (-2 : Int) = 1 / 4 by norm_num] at hquarter
    have : 4 * ((scaled num den (-1074)).1 : ℚ) ≤ (scaled num den (-1074)).2 := by linarith
    exact_mod_cast this
  rw [nearestBits, if_neg hn, hplace]
  dsimp only
  rw [roundEven_of_lt_half (by omega)]
  rfl

private theorem decimal_ratio (d : Nat) (e : Int) :
    ((d * 10 ^ e.toNat : Nat) : ℚ) / (10 ^ (-e).toNat : Nat) = d * 10 ^ e := by
  by_cases he : 0 ≤ e
  · obtain ⟨k, rfl⟩ := Int.eq_ofNat_of_zero_le he
    have hz : (-(k : Int)).toNat = 0 := by omega
    rw [hz, Int.toNat_natCast, zpow_natCast]
    push_cast
    ring
  · obtain ⟨k, hk⟩ : ∃ k : Nat, e = -(k : Int) := ⟨(-e).toNat, by omega⟩
    have hz : (-(k : Int)).toNat = 0 := by omega
    rw [hk, hz, neg_neg, Int.toNat_natCast, zpow_neg, zpow_natCast, ← div_eq_mul_inv]
    push_cast
    ring

private theorem two_zpow_three_mul (e : Int) : (2 : ℚ) ^ (3 * e) = 8 ^ e := by
  rw [zpow_mul]
  norm_num

private theorem two_zpow_le_ten_zpow (he : 0 ≤ e) : (2 : ℚ) ^ (3 * e) ≤ 10 ^ e := by
  rw [two_zpow_three_mul]
  exact zpow_le_zpow_left₀ he (by norm_num) (by norm_num)

private theorem ten_zpow_le_two_zpow (he : e ≤ 0) : (10 : ℚ) ^ e ≤ 2 ^ (3 * e) := by
  obtain ⟨k, rfl⟩ : ∃ k : Nat, e = -(k : Int) := ⟨(-e).toNat, by omega⟩
  rw [two_zpow_three_mul, zpow_neg, zpow_neg, zpow_natCast, zpow_natCast]
  gcongr
  norm_num

/-- The exponents that are settled at once lie where rounding would settle them. -/
private theorem decimalBits_eq {d : Nat} (hd : d ≠ 0) (e : Int) :
    decimalBits d e = nearestBits (d * 10 ^ e.toNat) (10 ^ (-e).toNat) := by
  have hden : 10 ^ (-e).toNat ≠ 0 := (Nat.pow_pos (by decide)).ne'
  have hnum : d * 10 ^ e.toNat ≠ 0 := Nat.mul_ne_zero hd (Nat.pow_pos (by decide)).ne'
  have h10 : ∀ k, Nat.pow 10 k = 10 ^ k := fun _ => rfl
  rw [decimalBits, if_neg hd]
  by_cases hhuge : 400 < e
  · have hone : (1 : ℚ) ≤ d := by exact_mod_cast Nat.pos_of_ne_zero hd
    have hle : (2 : ℚ) ^ (1025 : Int) ≤ d * 10 ^ e := by
      calc (2 : ℚ) ^ (1025 : Int) ≤ 2 ^ (3 * e) := two_zpow_le (by omega)
        _ ≤ 10 ^ e := two_zpow_le_ten_zpow (by omega)
        _ ≤ d * 10 ^ e := le_mul_of_one_le_left (by positivity) hone
    rw [if_pos hhuge, nearestBits_of_huge hnum hden (decimal_ratio d e ▸ hle)]
  rw [if_neg hhuge]
  by_cases htiny : e < -(401 + (d.log2 : Int))
  · have hle : (d : ℚ) * 10 ^ e ≤ 2 ^ (-1076 : Int) := by
      have hlt : (d : ℚ) ≤ 2 ^ ((d.log2 : Int) + 1) := by exact_mod_cast (Nat.lt_log2_self (n := d)).le
      have hpow : (10 : ℚ) ^ e ≤ 2 ^ (3 * e) := ten_zpow_le_two_zpow (by omega)
      calc (d : ℚ) * 10 ^ e ≤ 2 ^ ((d.log2 : Int) + 1) * 2 ^ (3 * e) := by gcongr
        _ = 2 ^ ((d.log2 : Int) + 1 + 3 * e) := (zpow_add₀ (by norm_num) _ _).symm
        _ ≤ 2 ^ (-1076 : Int) := two_zpow_le (by omega)
    rw [if_pos htiny, nearestBits_of_tiny hden (decimal_ratio d e ▸ hle)]
  rw [if_neg htiny]
  by_cases he : 0 ≤ e
  · have hz : (-e).toNat = 0 := by omega
    rw [if_pos he, hz, h10, Nat.pow_zero]
  · have hz : e.toNat = 0 := by omega
    rw [if_neg he, hz, h10, Nat.pow_zero, Nat.mul_one]

/-- Decimals of one value are rounded alike. -/
theorem decimalBits_congr {d d' : Nat} {e e' : Int} (hd : d ≠ 0) (hd' : d' ≠ 0)
    (h : (d : ℚ) * 10 ^ e = d' * 10 ^ e') : decimalBits d e = decimalBits d' e' := by
  rw [decimalBits_eq hd, decimalBits_eq hd']
  apply nearestBits_congr (Nat.pow_pos (by decide)).ne' (Nat.pow_pos (by decide)).ne'
  rw [decimal_ratio, decimal_ratio, h]

theorem decimalBits_of_magnitude {d : Nat} {e : Int} (hx : x.isFinite = true) (hd : d ≠ 0)
    (h : (d : ℚ) * 10 ^ e = x.magnitude) : decimalBits d e = x.magnitudeBits := by
  rw [decimalBits_eq hd]
  apply nearestBits_of_magnitude hx (Nat.mul_ne_zero hd (Nat.pow_pos (by decide)).ne') (Nat.pow_pos (by decide)).ne'
  rw [decimal_ratio, h]

theorem ofMagnitude_magnitudeBits (x : Binary64) : ofMagnitude x.isNegative x.magnitudeBits = x := by
  obtain ⟨bits⟩ := x
  have hlt := bits.toNat_lt
  rw [ofMagnitude, mk.injEq, ← UInt64.toNat_inj, UInt64.toNat_ofNat']
  simp only [isNegative, magnitudeBits, Nat.pow_eq, decide_eq_true_eq]
  split <;> omega

end AuditTrail.Binary64
