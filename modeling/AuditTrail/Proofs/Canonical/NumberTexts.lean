import AuditTrail.Proofs.Canonical.Fixpoint

/-!
# Numbers that are written alike

A finite number other than zero is spelled by an integer whose nearest number it is, or by itself, so two of them
with one text are the same (`Binary64.eq_of_rereadFloat`). A number with the text of an integer spells that integer
(`Canonical.rereadFloat_of_encodeFloat`): any other text of a number has a point or an exponent.
-/

namespace AuditTrail

namespace Binary64

open Decimal (value)

private theorem isFinite_of_isZero {x : Binary64} (h : x.isZero = true) : x.isFinite = true := by
  have hm := x.magnitudeBits_eq
  rw [isZero, beq_iff_eq] at h
  have he : x.exponentField = 0 := by omega
  rw [isFinite, he]
  rfl

/-- A finite number other than zero is spelled by an integer whose nearest number it is, or by itself. -/
private theorem rereadFloat_cases {x : Binary64} (hf : x.isFinite = true) (hz : x.isZero = false) :
    (∃ i : Int, Canonical.rereadFloat x = .int i ∧ i ≠ 0 ∧ x = ofDecimal (decide (i < 0)) i.natAbs 0) ∨
      Canonical.rereadFloat x = .float x := by
  have hd := ofDecimal_shortest hf hz
  have hpos := Decimal.value_ne_zero (leads_shortest hz) fun _ => lt_ten_of_mem_shortest
  rw [Canonical.rereadFloat, hz, if_neg (by decide), Canonical.spelledNumber]
  dsimp only
  split
  · rename_i hw
    obtain ⟨k, hk⟩ : ∃ k : Nat, x.shortest.point - x.shortest.digits.length = k :=
      ⟨(x.shortest.point - x.shortest.digits.length).toNat, by omega⟩
    rw [hk] at hd ⊢
    rw [Int.toNat_natCast, Nat.pow_eq]
    obtain ⟨n, hn⟩ : ∃ n, n = value x.shortest.digits * 10 ^ k := ⟨_, rfl⟩
    have hn0 : n ≠ 0 := hn ▸ Nat.mul_ne_zero hpos (Nat.pow_pos (by decide)).ne'
    have hbits : decimalBits (value x.shortest.digits) k = decimalBits n 0 := by
      apply decimalBits_congr hpos hn0
      rw [hn, zpow_natCast, zpow_zero, mul_one]
      push_cast
      rfl
    rw [ofDecimal, hbits] at hd
    rw [← hn]
    left
    cases hneg : x.isNegative with
    | true =>
      rw [hneg] at hd
      have hlt : -(n : Int) < 0 := by omega
      refine ⟨-(n : Int), rfl, by omega, ?_⟩
      rw [decide_eq_true hlt, Int.natAbs_neg, Int.natAbs_natCast, ofDecimal, hd]
    | false =>
      rw [hneg] at hd
      have hlt : ¬(n : Int) < 0 := by omega
      refine ⟨n, rfl, by omega, ?_⟩
      rw [decide_eq_false hlt, Int.natAbs_natCast, ofDecimal, hd]
  · right
    rw [hd]

/-- Finite numbers that are spelled alike are the same, or are both zero. -/
theorem eq_of_rereadFloat {x y : Binary64} (hx : x.isFinite = true) (hy : y.isFinite = true)
    (h : Canonical.rereadFloat x = Canonical.rereadFloat y) : x = y ∨ (x.isZero = true ∧ y.isZero = true) := by
  have hzero : ∀ {z : Binary64}, z.isZero = true → Canonical.rereadFloat z = .int 0 := fun hz => by
    rw [Canonical.rereadFloat, if_pos hz]
  have hother : ∀ {z : Binary64}, z.isFinite = true → z.isZero = false → Canonical.rereadFloat z ≠ .int 0 := by
    intro z hf hz he
    rcases rereadFloat_cases hf hz with ⟨i, hi, hne, -⟩ | hr
    · exact hne (Value.int.inj (hi.symm.trans he))
    · exact absurd (hr.symm.trans he) (by simp)
  cases hxz : x.isZero with
  | true =>
    cases hyz : y.isZero with
    | true => exact .inr ⟨rfl, rfl⟩
    | false => exact absurd (h.symm.trans (hzero hxz)) (hother hy hyz)
  | false =>
    cases hyz : y.isZero with
    | true => exact absurd (h.trans (hzero hyz)) (hother hx hxz)
    | false =>
      left
      rcases rereadFloat_cases hx hxz with ⟨i, hi, -, hxi⟩ | hr
      · rcases rereadFloat_cases hy hyz with ⟨j, hj, -, hyj⟩ | hs
        · obtain rfl : i = j := Value.int.inj (hi.symm.trans (h.trans hj))
          rw [hxi, hyj]
        · exact absurd (hi.symm.trans (h.trans hs)) (by simp)
      · rcases rereadFloat_cases hy hyz with ⟨j, hj, -, -⟩ | hs
        · exact absurd (hr.symm.trans (h.trans hj)) (by simp)
        · exact Value.float.inj (hr.symm.trans (h.trans hs))

end Binary64

namespace Canonical

theorem isFinite_of_encodeFloat {x : Binary64} {t : Text} (h : encodeFloat x = .ok t) : x.isFinite = true := by
  cases hf : x.isFinite with
  | true => rfl
  | false => simp [encodeFloat, hf] at h

private theorem ofInt_injective {i j : Int} (h : Decimal.ofInt i = Decimal.ofInt j) : i = j := by
  have hminus : ∀ n, CodePoint.ofChar '-' ∉ Decimal.ofNat n := by
    intro n hm
    have hv := Decimal.val_of_mem_textOfDigits (fun _ => Decimal.lt_ten_of_mem_digits) hm
    have h45 : (CodePoint.ofChar '-').val = 45 := rfl
    omega
  rw [Decimal.ofInt, Decimal.ofInt] at h
  split at h
  · split at h
    · have hn := Decimal.ofNat_injective (List.cons.inj h).2
      omega
    · exact absurd (h ▸ List.mem_cons_self) (hminus _)
  · split at h
    · exact absurd (h ▸ List.mem_cons_self) (hminus _)
    · have hn := Decimal.ofNat_injective h
      omega

private theorem exists_mark_of_layout {d : Decimal.Pointed}
    (h : ¬((d.digits.length : Int) ≤ d.point ∧ d.point ≤ canonicalStyle.high)) :
    ∃ c ∈ d.layout canonicalStyle, c.val = 0x2E ∨ c.val = 0x65 := by
  have hpoint : CodePoint.ofChar '.' ∈ lit "." := List.mem_singleton.mpr rfl
  have hzero : CodePoint.ofChar '.' ∈ lit "0." := by decide
  have hexp : CodePoint.ofChar 'e' ∈ lit "e" := List.mem_singleton.mpr rfl
  rw [Decimal.Pointed.layout]
  split
  · rename_i hs
    rw [Decimal.Pointed.plain]
    split
    · exact ⟨_, by simp only [List.mem_append]; exact .inl (.inl hzero), .inl rfl⟩
    · split
      · rename_i hk
        exact absurd ⟨hk, hs.2⟩ h
      · exact ⟨_, by simp only [List.mem_append]; exact .inl (.inr hpoint), .inl rfl⟩
  · rw [Decimal.Pointed.scientific]
    exact ⟨_, by simp only [List.mem_append]; exact .inl (.inl (.inr hexp)), .inr rfl⟩

private theorem val_of_mem_ofInt {i : Int} {c : CodePoint} (h : c ∈ Decimal.ofInt i) :
    c.val = 0x2D ∨ (48 ≤ c.val ∧ c.val ≤ 57) := by
  have hdigit : c ∈ Decimal.ofNat i.natAbs → 48 ≤ c.val ∧ c.val ≤ 57 := fun hm =>
    Decimal.val_of_mem_textOfDigits (fun _ => Decimal.lt_ten_of_mem_digits) hm
  rw [Decimal.ofInt] at h
  split at h
  · rcases List.mem_cons.mp h with rfl | hm
    · exact .inl rfl
    · exact .inr (hdigit hm)
  · exact .inr (hdigit h)

/-- A floating point number with the text of an integer spells that integer. -/
theorem rereadFloat_of_encodeFloat {x : Binary64} {i : Int} (h : encodeFloat x = .ok (Decimal.ofInt i)) :
    rereadFloat x = .int i := by
  have hint : ∀ j, rereadFloat x = .int j → rereadFloat x = .int i := by
    intro j hj
    have he := encode_rereadFloat h
    rw [hj, encode] at he
    rw [hj, ofInt_injective (encodeInt_eq_ok he).2]
  cases hz : x.isZero with
  | true => exact hint 0 (by rw [rereadFloat, if_pos hz])
  | false =>
    have hf := isFinite_of_encodeFloat h
    rcases Binary64.rereadFloat_cases hf hz with ⟨j, hj, -, -⟩ | hr
    · exact hint j hj
    · -- a number that is not whole has a mark in its text that no integer has
      have hw : ¬((x.shortest.digits.length : Int) ≤ x.shortest.point ∧ x.shortest.point ≤ canonicalStyle.high) := by
        intro hw
        rw [rereadFloat, if_neg (by simp [hz]), spelledNumber] at hr
        dsimp only at hr
        rw [if_pos hw] at hr
        exact absurd hr (by simp)
      obtain ⟨c, hc, hmark⟩ := exists_mark_of_layout hw
      simp only [encodeFloat, hf, hz, Bool.not_true, Bool.false_eq_true, if_false, Except.ok.injEq] at h
      have hm := val_of_mem_ofInt (h ▸ List.mem_append_right _ hc)
      omega

theorem encodeInt_of_encodeFloat {x : Binary64} {i : Int} (h : encodeFloat x = .ok (Decimal.ofInt i)) :
    encodeInt i = .ok (Decimal.ofInt i) := by
  have he := encode_rereadFloat h
  rwa [rereadFloat_of_encodeFloat h, encode] at he

private theorem encodeFloat_of_isZero {x : Binary64} (hz : x.isZero = true) : encodeFloat x = .ok (lit "0") := by
  rw [encodeFloat, Binary64.isFinite_of_isZero hz, if_neg (by decide), if_pos hz]

theorem encodeFloat_congr_of_isZero {x y : Binary64} (hx : x.isZero = true) (hy : y.isZero = true) :
    encodeFloat x = encodeFloat y := by
  rw [encodeFloat_of_isZero hx, encodeFloat_of_isZero hy]

end Canonical

end AuditTrail
