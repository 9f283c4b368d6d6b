import AuditTrail.Decimal.Layout
import AuditTrail.Proofs.Decimal.Numerals
import AuditTrail.Proofs.Decimal.ReadBack

/-!
# Notations of a decimal

Digits that neither start nor end in a zero are told, with the place of the point, by their value
(`Pointed.eq_of_ratio_eq`). Every layout of them is the text of a numeral with that value (`Pointed.text_numeral`,
`Pointed.magnitude_numeral`), and whether the layout has an exponent is a matter of the value alone
(`Pointed.pow_le_ratio_iff`).
-/

namespace AuditTrail.Decimal

/-- Digits that neither start nor end in a zero. -/
structure IsNormal (ds : List Nat) : Prop where
  leads : Leads ds
  lt_ten : ∀ d ∈ ds, d < 10
  last : ∀ d ∈ ds.getLast?, d ≠ 0

variable {ds : List Nat}

private theorem value_singleton (d : Nat) : value [d] = d := by
  rw [value, List.foldl_cons, List.foldl_nil, Nat.mul_zero, Nat.zero_add]

private theorem pow_le_value (h : Leads ds) : 10 ^ (ds.length - 1) ≤ value ds := by
  obtain ⟨a, rest, rfl, ha⟩ := h
  have hv := value_append [a] rest
  rw [List.singleton_append, value_singleton] at hv
  rw [hv, List.length_cons, Nat.add_sub_cancel]
  exact (Nat.le_mul_of_pos_left _ (Nat.pos_of_ne_zero ha)).trans (Nat.le_add_right _ _)

private theorem IsNormal.value_mod_ten (h : IsNormal ds) : value ds % 10 ≠ 0 := by
  obtain ⟨a, rest, he, -⟩ := h.leads
  have hne : ds ≠ [] := by
    rw [he]
    exact List.cons_ne_nil a rest
  have hlast := h.last _ (List.getLast?_eq_some_getLast hne)
  have hten := h.lt_ten _ (List.getLast_mem hne)
  rw [← List.dropLast_append_getLast hne, value_append_singleton]
  omega

/-- Numbers that are no multiples of ten are told apart from their products with powers of ten. -/
private theorem eq_of_mul_zpow_eq {m n : Nat} {a b : Int} (hm : m % 10 ≠ 0) (hn : n % 10 ≠ 0)
    (h : (m : ℚ) * 10 ^ a = n * 10 ^ b) : m = n ∧ a = b := by
  have hten : ∀ e : Int, (10 : ℚ) ^ e ≠ 0 := fun e => zpow_ne_zero e (by norm_num)
  have hle : ∀ {m n : Nat} {a b : Int}, m % 10 ≠ 0 → (m : ℚ) * 10 ^ a = n * 10 ^ b → b ≤ a := by
    intro m n a b hm h
    by_contra hlt
    obtain ⟨k, rfl⟩ : ∃ k : Nat, b = (k + 1 : Nat) + a := ⟨(b - a - 1).toNat, by omega⟩
    rw [zpow_add₀ (by norm_num), zpow_natCast, ← mul_assoc] at h
    have hmn : m = n * 10 ^ (k + 1) := by exact_mod_cast mul_right_cancel₀ (hten a) h
    rw [hmn, Nat.pow_succ, ← Nat.mul_assoc, Nat.mul_mod_left] at hm
    exact hm rfl
  obtain rfl : a = b := le_antisymm (hle hn h.symm) (hle hm h)
  exact ⟨by exact_mod_cast mul_right_cancel₀ (hten a) h, rfl⟩

private theorem isNormal_dropZeros (h : Leads ds) (hd : ∀ d ∈ ds, d < 10) : IsNormal (Binary64.dropZeros ds) where
  leads := Binary64.leads_dropZeros h
  lt_ten d hm := hd d (Binary64.mem_of_mem_dropZeros hm)
  last d hm := by
    rw [Binary64.dropZeros, List.getLast?_reverse] at hm
    have hnot := List.head?_dropWhile_not (· == 0) ds.reverse
    rw [Option.mem_def.mp hm] at hnot
    simpa using hnot

theorem leads_paddedDigits {n : Nat} (h : n ≠ 0) : Leads (paddedDigits 1 n) := by
  have hpos := (leads_digits h).length_pos
  have hnone : 1 - (digits n).length = 0 := by omega
  rw [paddedDigits, hnone, List.replicate_zero, List.nil_append]
  exact leads_digits h

private theorem paddedDigits_ne_nil (width n : Nat) : paddedDigits width n ≠ [] :=
  List.append_ne_nil_of_right_ne_nil _ (digits_ne_nil n)

namespace Numeral

/-- A numeral may have more zeros at the end than the digits of its value. -/
private theorem magnitude_eq {n : Numeral} {c j : Nat} {e : Int} (hc : n.coefficient = c * 10 ^ j)
    (he : n.exponent = e - j) :
    n.magnitude = c * 10 ^ e := by
  have hsum : e = j + (e - j) := by omega
  conv_rhs => rw [hsum, zpow_add₀ (by norm_num), zpow_natCast]
  rw [magnitude, hc, he]
  push_cast
  ring

end Numeral

namespace Power

/-- The exponent of a style, which always has a sign. -/
def ofStyle (style : DecimalStyle) (e : Int) : Power :=
  ⟨false, if e < 0 then .minus else .plus, paddedDigits style.exponentWidth e.natAbs⟩

private theorem text_ofStyle (style : DecimalStyle) (e : Int) : (ofStyle style e).text =
    lit "e" ++ (lit (if e < 0 then "-" else "+") ++ padded style.exponentWidth e.natAbs) := by
  rw [padded_eq, text, ofStyle]
  split <;> rfl

private theorem value_ofStyle (style : DecimalStyle) (e : Int) : (ofStyle style e).value = e := by
  rw [value, ofStyle, value_paddedDigits]
  split
  · show -((e.natAbs : Nat) : Int) = e
    omega
  · show ((e.natAbs : Nat) : Int) = e
    omega

end Power

namespace Pointed

variable {d : Pointed}

def ratio (d : Pointed) : ℚ := value d.digits * 10 ^ (d.point - d.digits.length)

/-- The value tells the digits and the place of the point. -/
theorem eq_of_ratio_eq {c d : Pointed} (hc : IsNormal c.digits) (hd : IsNormal d.digits) (h : c.ratio = d.ratio) :
    c = d := by
  obtain ⟨hvalue, hpoint⟩ := eq_of_mul_zpow_eq hc.value_mod_ten hd.value_mod_ten h
  have hdigits : c.digits = d.digits := by
    rw [← digits_value hc.leads hc.lt_ten, hvalue, digits_value hd.leads hd.lt_ten]
  obtain ⟨ds, p⟩ := c
  obtain ⟨es, q⟩ := d
  obtain rfl : ds = es := hdigits
  obtain rfl : p = q := by
    simp only at hpoint
    omega
  rfl

/-- Where the point stands is a matter of the value. -/
theorem pow_le_ratio_iff (h : IsNormal d.digits) (m : Int) : (10 : ℚ) ^ m ≤ d.ratio ↔ m < d.point := by
  have hlen := h.leads.length_pos
  have hten : (0 : ℚ) < 10 ^ (d.point - d.digits.length) := zpow_pos (by norm_num) _
  have hpow : ∀ k : Nat, (10 : ℚ) ^ k * 10 ^ (d.point - d.digits.length) = 10 ^ (k + (d.point - d.digits.length)) :=
    fun k => by rw [zpow_add₀ (by norm_num), zpow_natCast]
  have hlow : (10 : ℚ) ^ (d.point - 1) ≤ d.ratio := by
    have hv : ((10 ^ (d.digits.length - 1) : Nat) : ℚ) ≤ value d.digits := by exact_mod_cast pow_le_value h.leads
    have hexp : d.point - 1 = ((d.digits.length - 1 : Nat) : Int) + (d.point - d.digits.length) := by omega
    rw [hexp, ← hpow]
    push_cast at hv
    exact mul_le_mul_of_nonneg_right hv hten.le
  have hhigh : d.ratio < 10 ^ d.point := by
    have hv : (value d.digits : ℚ) < (10 ^ d.digits.length : Nat) := by exact_mod_cast value_lt h.lt_ten
    have hexp : d.point = (d.digits.length : Int) + (d.point - d.digits.length) := by omega
    conv_rhs => rw [hexp, ← hpow]
    push_cast at hv
    exact mul_lt_mul_of_pos_right hv hten
  constructor
  · intro hm
    exact (zpow_lt_zpow_iff_right₀ (by norm_num)).mp (hm.trans_lt hhigh)
  · intro hm
    exact (zpow_le_zpow_right₀ (by norm_num) (by omega)).trans hlow

def plainNumeral (style : DecimalStyle) (negative : Bool) (d : Pointed) : Numeral :=
  if d.point ≤ 0 then ⟨negative, [0], some (List.replicate (-d.point).toNat 0 ++ d.digits), none⟩
  else if (d.digits.length : Int) ≤ d.point then
    ⟨negative, d.digits ++ List.replicate (d.point.toNat - d.digits.length) 0,
      if style.wholePoint then some [0] else none, none⟩
  else ⟨negative, d.digits.take d.point.toNat, some (d.digits.drop d.point.toNat), none⟩

def scientificNumeral (style : DecimalStyle) (negative : Bool) (d : Pointed) : Numeral :=
  ⟨negative, d.digits.take 1, if d.digits.length = 1 then none else some (d.digits.drop 1),
    some (.ofStyle style (d.point - 1))⟩

/-- The numeral that a style lays a decimal out as. -/
def numeral (style : DecimalStyle) (negative : Bool) (d : Pointed) : Numeral :=
  if style.low < d.point ∧ d.point ≤ style.high then d.plainNumeral style negative
  else d.scientificNumeral style negative

variable (style : DecimalStyle) (negative : Bool)

private theorem text_plainNumeral : (d.plainNumeral style negative).text = signText negative ++ d.plain style := by
  have hzero : lit "0." = textOfDigits [0] ++ lit "." := rfl
  rw [plainNumeral, plain]
  split
  · simp only [Numeral.text, Numeral.placesText, Numeral.powerText, hzero, textOfDigits_append, textOfDigits_zeros,
      List.append_assoc, List.append_nil]
  · split
    · have hplaces : Numeral.placesText (if style.wholePoint then some [0] else none) =
          if style.wholePoint then lit ".0" else [] := by cases style.wholePoint <;> rfl
      simp only [Numeral.text, hplaces, Numeral.powerText, textOfDigits_append, textOfDigits_zeros,
        List.append_assoc, List.append_nil]
    · simp only [Numeral.text, Numeral.placesText, Numeral.powerText, List.append_assoc, List.append_nil]

private theorem text_scientificNumeral (h : Leads d.digits) :
    (d.scientificNumeral style negative).text = signText negative ++ d.scientific style := by
  obtain ⟨digits, point⟩ := d
  obtain ⟨a, rest, rfl, -⟩ := h
  rw [scientific, Numeral.text, scientificNumeral]
  dsimp only [Numeral.powerText]
  rw [Power.text_ofStyle]
  cases rest with
  | nil => simp [Numeral.placesText]
  | cons b rest => simp [Numeral.placesText]

/-- A layout is the text of a numeral. -/
theorem text_numeral (h : Leads d.digits) : (d.numeral style negative).text = signText negative ++ d.layout style := by
  rw [numeral, layout]
  split
  · exact text_plainNumeral style negative
  · exact text_scientificNumeral style negative h

private theorem isJson_plainNumeral (h : IsNormal d.digits) : (d.plainNumeral style negative).IsJson := by
  have hzeros : ∀ {k n : Nat}, n ∈ List.replicate k 0 → n < 10 := fun hn => by
    rw [List.eq_of_mem_replicate hn]
    decide
  obtain ⟨a, rest, he, ha⟩ := h.leads
  rw [plainNumeral]
  split
  · refine ⟨.inl rfl, fun n hn => ?_, ?_, by simp⟩
    · rw [List.mem_singleton.mp hn]
      decide
    · rintro _ ⟨⟩
      refine ⟨List.append_ne_nil_of_right_ne_nil _ (he ▸ List.cons_ne_nil a rest), fun n hn => ?_⟩
      exact (List.mem_append.mp hn).elim hzeros (h.lt_ten n)
  · split
    · refine ⟨.inr ⟨a, _, by rw [he, List.cons_append], ha⟩, fun n hn => ?_, ?_, by simp⟩
      · exact (List.mem_append.mp hn).elim (h.lt_ten n) hzeros
      · cases style.wholePoint <;> simp
    · next h0 hk =>
      obtain ⟨m, hm⟩ : ∃ m, d.point.toNat = m + 1 := ⟨d.point.toNat - 1, by omega⟩
      refine ⟨.inr ⟨a, rest.take m, by rw [he, hm, List.take_succ_cons], ha⟩,
        fun n hn => h.lt_ten n (List.mem_of_mem_take hn), ?_, by simp⟩
      rintro _ ⟨⟩
      refine ⟨fun hnil => ?_, fun n hn => h.lt_ten n (List.mem_of_mem_drop hn)⟩
      rw [List.drop_eq_nil_iff] at hnil
      omega

private theorem isJson_scientificNumeral (h : IsNormal d.digits) : (d.scientificNumeral style negative).IsJson := by
  obtain ⟨a, rest, he, ha⟩ := h.leads
  refine ⟨.inr ⟨a, [], by rw [scientificNumeral, he, List.take_succ_cons, List.take_zero], ha⟩,
    fun n hn => h.lt_ten n (List.mem_of_mem_take hn), ?_, ?_⟩
  · rw [scientificNumeral]
    dsimp only
    split
    · simp
    · next hlen =>
      rintro _ ⟨⟩
      refine ⟨fun hnil => ?_, fun n hn => h.lt_ten n (List.mem_of_mem_drop hn)⟩
      rw [List.drop_eq_nil_iff] at hnil
      have := h.leads.length_pos
      omega
  · rintro _ ⟨⟩
    exact ⟨paddedDigits_ne_nil _ _, fun _ => lt_ten_of_mem_paddedDigits⟩

theorem isJson_numeral (h : IsNormal d.digits) : (d.numeral style negative).IsJson := by
  rw [numeral]
  split
  · exact isJson_plainNumeral style negative h
  · exact isJson_scientificNumeral style negative h

private theorem magnitude_plainNumeral : (d.plainNumeral style negative).magnitude = d.ratio := by
  rw [plainNumeral]
  split
  · next h0 =>
    apply Numeral.magnitude_eq (j := 0)
    · have hv : value ([0] ++ (List.replicate (-d.point).toNat 0 ++ d.digits)) = value d.digits :=
        (value_zeros_append 1 _).trans (value_zeros_append _ d.digits)
      rw [Numeral.coefficient, Option.getD_some, hv, Nat.pow_zero, Nat.mul_one]
    · simp only [Numeral.exponent, Option.elim_none, Option.getD_some, List.length_append, List.length_replicate]
      omega
  · split
    · next h0 hk =>
      cases style.wholePoint with
      | true =>
        apply Numeral.magnitude_eq (j := d.point.toNat - d.digits.length + 1)
        · rw [← value_append_zeros, List.replicate_succ', ← List.append_assoc]
          rfl
        · simp only [Numeral.exponent, Option.elim_none, if_true, Option.getD_some, List.length_singleton]
          omega
      | false =>
        apply Numeral.magnitude_eq (j := d.point.toNat - d.digits.length)
        · rw [← value_append_zeros, Numeral.coefficient]
          simp
        · simp only [Numeral.exponent, Option.elim_none, Bool.false_eq_true, if_false, Option.getD_none, List.length_nil]
          omega
    · next h0 hk =>
      apply Numeral.magnitude_eq (j := 0)
      · rw [Numeral.coefficient, Option.getD_some, List.take_append_drop, Nat.pow_zero, Nat.mul_one]
      · simp only [Numeral.exponent, Option.elim_none, Option.getD_some, List.length_drop]
        omega

private theorem magnitude_scientificNumeral (h : Leads d.digits) :
    (d.scientificNumeral style negative).magnitude = d.ratio := by
  have hpos := h.length_pos
  have hplaces : (if d.digits.length = 1 then none else some (d.digits.drop 1)).getD [] = d.digits.drop 1 := by
    split
    · next hone => exact (List.drop_eq_nil_of_le (Nat.le_of_eq hone)).symm
    · rfl
  apply Numeral.magnitude_eq (j := 0)
  · simp only [Numeral.coefficient, scientificNumeral, hplaces, List.take_append_drop, Nat.pow_zero, Nat.mul_one]
  · simp only [Numeral.exponent, scientificNumeral, hplaces, Option.elim_some, Power.value_ofStyle, List.length_drop]
    omega

/-- A layout keeps the value. -/
theorem magnitude_numeral (h : Leads d.digits) : (d.numeral style negative).magnitude = d.ratio := by
  rw [numeral]
  split
  · exact magnitude_plainNumeral style negative
  · exact magnitude_scientificNumeral style negative h

theorem last_places_numeral (h : IsNormal d.digits) (hs : style.wholePoint = false) :
    ∀ ds ∈ (d.numeral style negative).places, ds.getLast? ≠ some 0 := by
  have hlast : d.digits.getLast? ≠ some 0 := fun hz => h.last 0 hz rfl
  have hdrop : ∀ k, (d.digits.drop k).getLast? ≠ some 0 := by
    intro k
    rw [List.getLast?_drop]
    split
    · simp
    · exact hlast
  obtain ⟨a, ha⟩ : ∃ a, d.digits.getLast? = some a := by
    rw [← Option.isSome_iff_exists, List.getLast?_isSome]
    obtain ⟨a, rest, he, -⟩ := h.leads
    exact he ▸ List.cons_ne_nil a rest
  rw [numeral, plainNumeral, scientificNumeral]
  split
  · split
    · rintro _ ⟨⟩
      rwa [List.getLast?_append, ha, Option.some_or, ← ha]
    · split
      · simp [hs]
      · rintro _ ⟨⟩
        exact hdrop _
  · dsimp only
    split
    · simp
    · rintro _ ⟨⟩
      exact hdrop 1

theorem negative_numeral : (d.numeral style negative).negative = negative := by
  rw [numeral, plainNumeral, scientificNumeral]
  split
  · split
    · rfl
    · split <;> rfl
  · rfl

theorem power_numeral : (d.numeral style negative).power =
    if style.low < d.point ∧ d.point ≤ style.high then none else some (.ofStyle style (d.point - 1)) := by
  rw [numeral, plainNumeral, scientificNumeral]
  split
  · split
    · rfl
    · split <;> rfl
  · rfl

theorem power_numeral_eq_none_iff (h : IsNormal d.digits) : (d.numeral style negative).power = none ↔
    (10 : ℚ) ^ style.low ≤ d.ratio ∧ d.ratio < 10 ^ style.high := by
  have hhigh : d.ratio < 10 ^ style.high ↔ d.point ≤ style.high := by
    rw [← not_le, pow_le_ratio_iff h, not_lt]
  rw [power_numeral, and_congr (pow_le_ratio_iff h style.low) hhigh]
  split
  · next hs => exact iff_of_true rfl hs
  · next hs => exact iff_of_false (by simp) hs

theorem ratio_plainDigits (n : Nat) (e : Int) : (Binary64.plainDigits n e).ratio = n * 10 ^ e :=
  Binary64.value_dropZeros n e

theorem isNormal_plainDigits {n : Nat} (h : n ≠ 0) (e : Int) : IsNormal (Binary64.plainDigits n e).digits :=
  isNormal_dropZeros (leads_digits h) fun _ => lt_ten_of_mem_digits

theorem isNormal_shortest {x : Binary64} (h : x.isZero = false) : IsNormal x.shortest.digits := by
  rcases Binary64.shortest_cases x with ⟨n, e, hb, hs⟩ | hs
  · rw [hs]
    exact isNormal_plainDigits (Binary64.ne_zero_of_readsBack h hb) e
  · rw [hs]
    exact isNormal_dropZeros (leads_digits (Binary64.exactScaled_ne_zero h)) fun _ => lt_ten_of_mem_digits

theorem coefficient_numeral_ne_zero (h : IsNormal d.digits) : (d.numeral style negative).coefficient ≠ 0 := by
  intro hz
  have hpos : (0 : ℚ) < d.ratio :=
    (zpow_pos (by norm_num) (d.point - 1)).trans_le ((pow_le_ratio_iff h _).mpr (by omega))
  rw [← magnitude_numeral style negative h.leads, Numeral.magnitude, hz, Nat.cast_zero, zero_mul] at hpos
  exact lt_irrefl 0 hpos

theorem plainDigits_numeral (h : IsNormal d.digits) :
    Binary64.plainDigits (d.numeral style negative).coefficient (d.numeral style negative).exponent = d := by
  apply eq_of_ratio_eq (isNormal_plainDigits (coefficient_numeral_ne_zero style negative h) _) h
  rw [ratio_plainDigits, ← magnitude_numeral style negative h.leads, Numeral.magnitude]

end Pointed

end AuditTrail.Decimal
