import AuditTrail.Decimal.Shortest
import AuditTrail.Proofs.Decimal.DigitText

/-!
# Shortest digits

The shortest digits of a number are those of a decimal that reads back as the number, without zeros
at their end, or else all digits of the number. Those of a number other than zero do not start with
a zero (`leads_shortest`).
-/

namespace AuditTrail.Binary64

open Decimal (Leads)

private theorem withDigits?_eq_some {x : Binary64} {exact d : Decimal.Pointed} {count : Nat}
    (h : x.withDigits? exact count = some d) :
    ∃ n e, x.readsBack n e = true ∧ d = plainDigits n e := by
  unfold withDigits? at h
  dsimp only at h
  generalize hlow : Decimal.value (exact.digits.take count) = low at h
  cases hb : x.readsBack low (exact.point - count) with
  | true =>
    cases ha : x.readsBack (low + 1) (exact.point - count) with
    | true =>
      rw [hb, ha] at h
      have hd := Option.some.inj h
      split at hd
      · exact ⟨low, _, hb, hd.symm⟩
      · exact ⟨low + 1, _, ha, hd.symm⟩
    | false =>
      rw [hb, ha] at h
      exact ⟨low, _, hb, (Option.some.inj h).symm⟩
  | false =>
    cases ha : x.readsBack (low + 1) (exact.point - count) with
    | true =>
      rw [hb, ha] at h
      exact ⟨low + 1, _, ha, (Option.some.inj h).symm⟩
    | false =>
      rw [hb, ha] at h
      exact absurd h (by simp)

-- An equation of functions, which is checked without computing digits.
private theorem shortest_eq : shortest = fun x : Binary64 =>
    (let exact := x.exactDigits
    match (List.range' 1 17).findSome? (x.withDigits? exact) with
    | some d => d
    | none => ⟨dropZeros exact.digits, exact.point⟩) := Eq.refl _

theorem shortest_cases (x : Binary64) :
    (∃ n e, x.readsBack n e = true ∧ x.shortest = plainDigits n e) ∨
      x.shortest = ⟨dropZeros x.exactDigits.digits, x.exactDigits.point⟩ := by
  rw [shortest_eq]
  dsimp only
  generalize x.exactDigits = exact
  cases hf : (List.range' 1 17).findSome? (x.withDigits? exact) with
  | none => exact .inr rfl
  | some d =>
    obtain ⟨count, -, hc⟩ := List.exists_of_findSome?_eq_some hf
    exact .inl (withDigits?_eq_some hc)

theorem shortest_congr {x y : Binary64} (h : x.magnitudeBits = y.magnitudeBits) : x.shortest = y.shortest := by
  have hfield : x.exponentField = y.exponentField := by rw [exponentField, exponentField, h]
  have hfraction : x.fraction = y.fraction := by rw [fraction, fraction, h]
  have hscaled : x.exactScaled = y.exactScaled := by
    rw [exactScaled, exactScaled, significand, significand, exponent, exponent, hfield, hfraction]
  have hexact : x.exactDigits = y.exactDigits := by rw [exactDigits, exactDigits, hscaled]
  have hback : x.readsBack = y.readsBack := by
    funext n e
    rw [readsBack, readsBack, h]
  have hbelow : x.prefersBelow = y.prefersBelow := by
    funext low places
    rw [prefersBelow, prefersBelow, hscaled]
  have hpick : x.withDigits? = y.withDigits? := by
    funext exact count
    rw [withDigits?, withDigits?, hback, hbelow]
  rw [shortest_eq]
  dsimp only
  rw [hexact, hpick]

theorem mem_of_mem_dropZeros {ds : List Nat} {d : Nat} (h : d ∈ dropZeros ds) : d ∈ ds := by
  rw [dropZeros, List.mem_reverse] at h
  exact List.mem_reverse.mp ((List.dropWhile_sublist _).mem h)

theorem lt_ten_of_mem_shortest {x : Binary64} {d : Nat} (h : d ∈ x.shortest.digits) : d < 10 := by
  rcases shortest_cases x with ⟨n, e, -, hs⟩ | hs
  · rw [hs] at h
    exact Decimal.lt_ten_of_mem_digits (mem_of_mem_dropZeros h)
  · rw [hs] at h
    exact Decimal.lt_ten_of_mem_digits (mem_of_mem_dropZeros h)

theorem leads_dropZeros {ds : List Nat} (h : Leads ds) : Leads (dropZeros ds) := by
  obtain ⟨a, rest, rfl, ha⟩ := h
  have hs : [a].dropWhile (· == 0) = [a] := by simp [ha]
  rw [dropZeros, List.reverse_cons, List.dropWhile_append]
  split
  · rw [hs]
    exact ⟨a, [], rfl, ha⟩
  · rw [List.reverse_append, List.reverse_singleton, List.singleton_append]
    exact ⟨a, _, rfl, ha⟩

private theorem significand_ne_zero {x : Binary64} (h : x.isZero = false) : x.significand ≠ 0 := by
  have hm : x.magnitudeBits ≠ 0 := by
    intro he
    rw [isZero, he] at h
    exact absurd h (by decide)
  rw [significand]
  split
  · rename_i he
    simp only [exponentField, Nat.pow_eq] at he
    simp only [fraction, Nat.pow_eq]
    omega
  · have h52 : 0 < Nat.pow 2 52 := by decide
    omega

theorem exactScaled_ne_zero {x : Binary64} (h : x.isZero = false) : x.exactScaled ≠ 0 := by
  have hs := Nat.pos_of_ne_zero (significand_ne_zero h)
  have h2 : 0 < Nat.pow 2 (x.exponent + 1074).toNat := Nat.pow_pos (by decide)
  have h5 : ∀ k, 0 < Nat.pow 5 k := fun _ => Nat.pow_pos (by decide)
  rw [exactScaled]
  exact Nat.ne_of_gt (Nat.mul_pos (Nat.mul_pos hs h2) (h5 1074))

theorem ne_zero_of_readsBack {x : Binary64} (h : x.isZero = false) {n : Nat} {e : Int} (hb : x.readsBack n e = true) :
    n ≠ 0 := by
  rintro rfl
  rw [readsBack, decimalBits, if_pos rfl, beq_iff_eq] at hb
  rw [isZero, ← hb] at h
  exact absurd h (by decide)

/-- The shortest digits of a number other than zero do not start with a zero. -/
theorem leads_shortest {x : Binary64} (h : x.isZero = false) : Leads x.shortest.digits := by
  rcases shortest_cases x with ⟨n, e, hb, hs⟩ | hs
  · rw [hs]
    exact leads_dropZeros (Decimal.leads_digits (ne_zero_of_readsBack h hb))
  · rw [hs]
    exact leads_dropZeros (Decimal.leads_digits (exactScaled_ne_zero h))

end AuditTrail.Binary64
