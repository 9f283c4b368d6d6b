import AuditTrail.Proofs.Decimal.DigitText
import AuditTrail.Proofs.Time.Dates
import AuditTrail.Time.Stamp

/-!
# Stamps denote milliseconds

Although a year has no fixed width, a stamp determines the millisecond in UTC that it was written of
(`ofUtcWall_injective`). A stamp holds digits, letters and four marks, and no bar among them.
-/

namespace AuditTrail

theorem CodePoint.val_ofChar (c : Char) : (ofChar c).val = c.toNat := rfl

namespace Stamp

open Calendar Decimal

private theorem val_of_mem_lit {c : CodePoint} {s : String} (d : Char) (hs : lit s = [.ofChar d])
    (h : c ∈ lit s) : c.val = d.toNat := by
  rw [hs, List.mem_singleton] at h
  rw [h]
  rfl

private theorem val_of_mem_ofNat {n : Nat} {c : CodePoint} (h : c ∈ ofNat n) : 48 ≤ c.val ∧ c.val ≤ 57 :=
  val_of_mem_textOfDigits (fun _ => lt_ten_of_mem_digits) h

theorem val_of_mem_padded {width n : Nat} {c : CodePoint} (h : c ∈ padded width n) :
    48 ≤ c.val ∧ c.val ≤ 57 := by
  rw [padded_eq] at h
  exact val_of_mem_textOfDigits (fun _ => lt_ten_of_mem_paddedDigits) h

theorem val_of_mem_ofUtcWall {wall : Nat} {c : CodePoint} (h : c ∈ ofUtcWall wall) :
    (48 ≤ c.val ∧ c.val ≤ 58) ∨ c.val = 45 ∨ c.val = 46 ∨ c.val = 84 ∨ c.val = 90 := by
  simp only [ofUtcWall, dateText, timeText, List.mem_append] at h
  have hd : ∀ {P : Prop}, 48 ≤ c.val ∧ c.val ≤ 57 → (48 ≤ c.val ∧ c.val ≤ 58) ∨ P := fun hc => .inl (by omega)
  rcases h with ((((((h | h) | h) | h) | h) | h) | ((((((h | h) | h) | h) | h) | h) | h)) | h
  · exact hd (val_of_mem_ofNat h)
  · exact .inr (.inl (val_of_mem_lit '-' rfl h))
  · exact hd (val_of_mem_padded h)
  · exact .inr (.inl (val_of_mem_lit '-' rfl h))
  · exact hd (val_of_mem_padded h)
  · exact .inr (.inr (.inr (.inl (val_of_mem_lit 'T' rfl h))))
  · exact hd (val_of_mem_padded h)
  · exact .inl (by rw [val_of_mem_lit ':' rfl h]; decide)
  · exact hd (val_of_mem_padded h)
  · exact .inl (by rw [val_of_mem_lit ':' rfl h]; decide)
  · exact hd (val_of_mem_padded h)
  · exact .inr (.inr (.inl (val_of_mem_lit '.' rfl h)))
  · exact hd (val_of_mem_padded h)
  · exact .inr (.inr (.inr (.inr (val_of_mem_lit 'Z' rfl h))))

theorem bar_not_mem_ofUtcWall (wall : Nat) : CodePoint.ofChar '|' ∉ ofUtcWall wall := by
  intro h
  have hv := val_of_mem_ofUtcWall h
  rw [CodePoint.val_ofChar] at hv
  exact absurd hv (by decide)

private theorem dateText_injective {d e : Date} (hd : d.isValid = true) (he : e.isValid = true) {s t : Text}
    (h : dateText d ++ s = dateText e ++ t) : d = e ∧ s = t := by
  rw [Date.isValid_iff] at hd he
  have hn : ∀ n, CodePoint.ofChar '-' ∉ ofNat n := by
    intro n hm
    have hv := val_of_mem_ofNat hm
    rw [CodePoint.val_ofChar] at hv
    exact absurd hv (by decide)
  have hlen : ∀ {n : Nat}, n < 100 → (padded 2 n).length = 2 := fun hn => length_padded (by decide) hn
  have hdm := daysInMonth_le d.year d.month
  have hem := daysInMonth_le e.year e.month
  simp only [dateText, List.append_assoc] at h
  -- The year ends at the first hyphen, and the rest has a fixed width.
  have hc := congrArg (Text.cut (CodePoint.ofChar '-')) h
  have hcut : ∀ n u, Text.cut (CodePoint.ofChar '-') (ofNat n ++ (lit "-" ++ u)) = (ofNat n, some u) :=
    fun n u => Text.cut_append (hn n) u
  rw [hcut, hcut, Prod.mk.injEq, Option.some.injEq] at hc
  obtain ⟨hy, hr⟩ := hc
  obtain ⟨hmonth, hr⟩ := List.append_inj hr (by rw [hlen (by omega), hlen (by omega)])
  obtain ⟨hday, hr⟩ := List.append_inj (List.append_cancel_left hr) (by rw [hlen (by omega), hlen (by omega)])
  refine ⟨?_, hr⟩
  cases d
  cases e
  simp only [Date.mk.injEq]
  exact ⟨ofNat_injective hy, padded_injective hmonth, padded_injective hday⟩

private theorem timeText_injective {v w : Nat} (h : timeText v = timeText w) :
    v % Duration.perDay / Duration.perMilli = w % Duration.perDay / Duration.perMilli := by
  have hlen : ∀ n, n % 24 < 100 ∧ n % 60 < 100 := fun n => by omega
  have h2 : ∀ {m n : Nat}, m < 100 → n < 100 → (padded 2 m).length = (padded 2 n).length := by
    intro m n hm hn
    rw [length_padded (by decide) hm, length_padded (by decide) hn]
  simp only [timeText, List.append_assoc] at h
  obtain ⟨hh, h⟩ := List.append_inj h (h2 (hlen _).1 (hlen _).1)
  obtain ⟨hm, h⟩ := List.append_inj (List.append_cancel_left h) (h2 (hlen _).2 (hlen _).2)
  obtain ⟨hs, h⟩ := List.append_inj (List.append_cancel_left h) (h2 (hlen _).2 (hlen _).2)
  have hf := padded_injective (List.append_cancel_left h)
  have hh := padded_injective hh
  have hm := padded_injective hm
  have hs := padded_injective hs
  simp only [Duration.perDay, Duration.perHour, Duration.perSecond, Duration.perMilli] at hh hm hs hf ⊢
  omega

/-- A stamp determines the millisecond that it was written of. -/
theorem ofUtcWall_injective {v w : Nat} (hv : v < wallLimit) (hw : w < wallLimit)
    (h : ofUtcWall v = ofUtcWall w) : v / Duration.perMilli = w / Duration.perMilli := by
  have hday : ∀ {n : Nat}, n < wallLimit → n / Duration.perDay < dayLimit :=
    fun hn => Nat.div_lt_of_lt_mul (Nat.mul_comm _ _ ▸ hn)
  simp only [ofUtcWall, List.append_assoc] at h
  obtain ⟨hd, h⟩ := dateText_injective (isValid_dateOf (hday hv)) (isValid_dateOf (hday hw)) h
  have ht := timeText_injective (List.append_cancel_right (List.append_cancel_left h))
  have hd := congrArg Date.days hd
  rw [days_dateOf, days_dateOf] at hd
  simp only [Duration.perDay, Duration.perHour, Duration.perSecond, Duration.perMilli] at hd ht ⊢
  omega

theorem write_eq_ok_iff {t : Instant} {stamp : Text} :
    write t = .ok stamp ↔ t.isAware = true ∧ ∃ u, t.toUtc = .ok u ∧ stamp = ofUtcWall u.wall := by
  rw [write]
  by_cases ha : t.isAware = true
  · cases hu : t.toUtc with
    | error f => simp [ha, Except.map]
    | ok u => simp [ha, Except.map, eq_comm]
  · simp [ha]

theorem write_of_toUtc {t u : Instant} (ha : t.isAware = true) (hu : t.toUtc = .ok u) :
    write t = .ok (ofUtcWall u.wall) := write_eq_ok_iff.mpr ⟨ha, u, hu, rfl⟩

end Stamp

end AuditTrail
