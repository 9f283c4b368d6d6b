import AuditTrail.Time.Calendar

/-!
# Days and dates

Every day before the year 10000 has a valid date (`isValid_dateOf`), and the date gives the day
back (`days_dateOf`).
-/

namespace AuditTrail.Calendar

theorem daysBeforeYear_succ {y : Nat} (hy : 1 ≤ y) :
    daysBeforeYear (y + 1) = daysBeforeYear y + 365 + if isLeap y then 1 else 0 := by
  obtain ⟨k, rfl⟩ : ∃ k, y = k + 1 := ⟨y - 1, by omega⟩
  have h4 : (k + 1) / 4 = k / 4 + if (k + 1) % 4 = 0 then 1 else 0 := by split <;> omega
  have h100 : (k + 1) / 100 = k / 100 + if (k + 1) % 100 = 0 then 1 else 0 := by split <;> omega
  have h400 : (k + 1) / 400 = k / 400 + if (k + 1) % 400 = 0 then 1 else 0 := by split <;> omega
  have hc : k / 100 ≤ k / 4 := Nat.div_le_div_left (by decide) (by decide)
  have hl : isLeap (k + 1) = true ↔ (k + 1) % 4 = 0 ∧ ((k + 1) % 100 ≠ 0 ∨ (k + 1) % 400 = 0) := by
    simp [isLeap]
  have hd : (k + 1) % 100 = 0 → (k + 1) % 4 = 0 := by omega
  have he : (k + 1) % 400 = 0 → (k + 1) % 100 = 0 := by omega
  simp only [daysBeforeYear, Nat.add_sub_cancel, h4, h100, h400, hl]
  by_cases c4 : (k + 1) % 4 = 0
  · by_cases c100 : (k + 1) % 100 = 0
    · by_cases c400 : (k + 1) % 400 = 0
      · simp only [c4, c100, c400, if_true, ne_eq, not_true_eq_false, or_true, and_self]
        omega
      · simp only [c4, c100, c400, if_true, if_false, ne_eq, not_true_eq_false, or_self, and_false]
        omega
    · have c400 : ¬(k + 1) % 400 = 0 := fun e => c100 (he e)
      simp only [c4, c100, c400, if_true, if_false, ne_eq, not_false_eq_true, true_or, and_self]
      omega
  · have c100 : ¬(k + 1) % 100 = 0 := fun e => c4 (hd e)
    have c400 : ¬(k + 1) % 400 = 0 := fun e => c100 (he e)
    simp only [c4, c100, c400, if_false, false_and]
    omega

private theorem yearFrom_spec {day y : Nat} (hy : 1 ≤ y) (h : daysBeforeYear y ≤ day) :
    y ≤ yearFrom day y ∧ daysBeforeYear (yearFrom day y) ≤ day ∧
      day < daysBeforeYear (yearFrom day y + 1) := by
  induction hn : day - y using Nat.strongRecOn generalizing y with
  | ind n ih =>
    rw [yearFrom]
    by_cases hc : daysBeforeYear (y + 1) ≤ day ∧ y < day
    · rw [if_pos hc]
      obtain ⟨hle, hs⟩ := ih (day - (y + 1)) (by omega) (by omega) hc.1 rfl
      exact ⟨by omega, hs⟩
    · rw [if_neg hc]
      have hb : 365 * y ≤ daysBeforeYear (y + 1) := by
        simp only [daysBeforeYear]
        omega
      exact ⟨Nat.le_refl y, h, by omega⟩

private theorem yearOf_spec (day : Nat) :
    1 ≤ yearOf day ∧ daysBeforeYear (yearOf day) ≤ day ∧ day < daysBeforeYear (yearOf day + 1) := by
  have hb : daysBeforeYear (day / 366 + 1) ≤ day := by
    simp only [daysBeforeYear]
    omega
  obtain ⟨hle, hs⟩ := yearFrom_spec (by omega) hb
  rw [yearOf]
  exact ⟨by omega, hs⟩

theorem four_digits_iff {day : Nat} : 1000 ≤ (dateOf day).year ↔ 364877 ≤ day := by
  obtain ⟨h1, h2, h3⟩ := yearOf_spec day
  show 1000 ≤ yearOf day ↔ 364877 ≤ day
  rcases Nat.lt_trichotomy (yearOf day) 1000 with hy | hy | hy
  · rw [daysBeforeYear] at h3
    omega
  · rw [hy, daysBeforeYear] at h2
    omega
  · have hc : (yearOf day - 1) / 100 ≤ (yearOf day - 1) / 4 := Nat.div_le_div_left (by decide) (by decide)
    rw [daysBeforeYear] at h2
    omega

private theorem yearOf_le {day : Nat} (h : day < dayLimit) : yearOf day ≤ 9999 := by
  have hs := (yearOf_spec day).2.1
  simp only [daysBeforeYear, dayLimit] at hs h
  omega

theorem monthStart_succ {y m : Nat} (h1 : 1 ≤ m) (h2 : m ≤ 11) :
    Date.monthStart y (m + 1) = Date.monthStart y m + daysInMonth y m := by
  have hm : m = 1 ∨ m = 2 ∨ m = 3 ∨ m = 4 ∨ m = 5 ∨ m = 6 ∨ m = 7 ∨ m = 8 ∨ m = 9 ∨ m = 10 ∨ m = 11 := by
    omega
  cases hl : isLeap y <;> rcases hm with rfl | rfl | rfl | rfl | rfl | rfl | rfl | rfl | rfl | rfl | rfl <;>
    simp [Date.monthStart, daysBeforeMonth, daysInMonth, hl]

private theorem find?_reverse_range' {p : Nat → Bool} (h : p 1 = true) (n : Nat) :
    ∃ m, (List.range' 1 (n + 1)).reverse.find? p = some m ∧ 1 ≤ m ∧ m ≤ n + 1 ∧ p m = true ∧
      ∀ k, m < k → k ≤ n + 1 → p k = false := by
  induction n with
  | zero => exact ⟨1, by simp [h], by omega, by omega, h, fun k _ _ => by omega⟩
  | succ n ih =>
    have hr : (List.range' 1 (n + 1 + 1)).reverse = (n + 2) :: (List.range' 1 (n + 1)).reverse := by
      rw [List.range'_1_concat, List.reverse_concat, Nat.add_comm 1 (n + 1)]
    rw [hr]
    by_cases hp : p (n + 2) = true
    · exact ⟨n + 2, by simp [hp], by omega, by omega, hp, fun k _ _ => by omega⟩
    · obtain ⟨m, hf, h1, hn, hm, hk⟩ := ih
      refine ⟨m, by simp [hp, hf], h1, by omega, hm, ?_⟩
      intro k hlt hle
      by_cases he : k = n + 2
      · rw [he]
        exact Bool.eq_false_iff.mpr hp
      · exact hk k hlt (by omega)

private theorem monthOf_spec {y rest : Nat} (h : rest < 365 + if isLeap y then 1 else 0) :
    1 ≤ monthOf y rest ∧ monthOf y rest ≤ 12 ∧ Date.monthStart y (monthOf y rest) ≤ rest ∧
      rest < Date.monthStart y (monthOf y rest) + daysInMonth y (monthOf y rest) := by
  obtain ⟨m, hf, h1, h12, hm, hk⟩ := find?_reverse_range' (p := fun m => Date.monthStart y m ≤ rest)
    (by simp [Date.monthStart, daysBeforeMonth]) 11
  have he : monthOf y rest = m := by rw [monthOf, hf, Option.getD_some]
  rw [he]
  refine ⟨h1, h12, of_decide_eq_true hm, ?_⟩
  by_cases hd : m = 12
  · subst hd
    have hs : Date.monthStart y 12 = 334 + if isLeap y then 1 else 0 := by
      simp [Date.monthStart, daysBeforeMonth]
    have hn : daysInMonth y 12 = 31 := rfl
    omega
  · have hs := of_decide_eq_false (hk (m + 1) (by omega) (by omega))
    rw [monthStart_succ h1 (by omega)] at hs
    omega

theorem daysInMonth_le (y m : Nat) : daysInMonth y m ≤ 31 := by
  unfold daysInMonth
  split <;> (try split) <;> decide

private theorem lt_yearLength (day : Nat) :
    day - daysBeforeYear (yearOf day) < 365 + if isLeap (yearOf day) then 1 else 0 := by
  obtain ⟨h1, -, h3⟩ := yearOf_spec day
  rw [daysBeforeYear_succ h1] at h3
  omega

/-- The date of a day gives the day back. -/
theorem days_dateOf (day : Nat) : (dateOf day).days = day := by
  have hy := (yearOf_spec day).2.1
  have hm := (monthOf_spec (lt_yearLength day)).2.2.1
  simp only [dateOf, Date.days]
  omega

theorem Date.isValid_iff {d : Date} :
    d.isValid = true ↔ 1 ≤ d.year ∧ d.year ≤ 9999 ∧ 1 ≤ d.month ∧ d.month ≤ 12 ∧ 1 ≤ d.day ∧
      d.day ≤ daysInMonth d.year d.month := by
  simp only [isValid, Bool.and_eq_true, decide_eq_true_iff, and_assoc]

theorem isValid_dateOf {day : Nat} (h : day < dayLimit) : (dateOf day).isValid = true := by
  obtain ⟨h1, h12, hs, hd⟩ := monthOf_spec (lt_yearLength day)
  have hy := (yearOf_spec day).1
  have hl := yearOf_le h
  rw [Date.isValid_iff]
  simp only [dateOf]
  omega

end AuditTrail.Calendar
