import AuditTrail.Proofs.Storage.BucketReads
import AuditTrail.Proofs.Storage.RoundTrip

/-!
# Stamps are ordered like milliseconds

From the year 1000 on, all parts of a stamp have a fixed width, so that the order of stamps as texts is that of the
milliseconds that they were written of (`Stamp.lt_ofUtcWall_iff`). The stamp of an instant, the instant that is read back
from it and its milliseconds since 1970 therefore denote one millisecond, on both sides of 1970 and whatever the offset
(`Instant.stamp_denotes_millisecond`).
-/

namespace AuditTrail

namespace Text

def lt (s t : Text) : Bool := !le t s

variable {s s' t t' : Text} {a b : CodePoint}

theorem lt_iff_not_le : lt s t = true ↔ ¬le t s = true := by rw [lt, Bool.not_eq_true', Bool.not_eq_true]

private theorem lt_irrefl (t : Text) : lt t t = false := by rw [lt, le_refl, Bool.not_true]

private theorem lt_cons_iff : lt (a :: s) (b :: t) = true ↔ a.val < b.val ∨ a.val = b.val ∧ lt s t = true := by
  rw [lt_iff_not_le, lt_iff_not_le, le_cons_iff, not_or, not_and]
  constructor
  · rintro ⟨hle, h⟩
    rcases Nat.lt_or_eq_of_le (Nat.not_lt.mp hle) with hlt | heq
    · exact .inl hlt
    · exact .inr ⟨heq, h heq.symm⟩
  · rintro (hlt | ⟨heq, h⟩)
    · exact ⟨by omega, fun h => absurd h (by omega)⟩
    · exact ⟨by omega, fun _ => h⟩

theorem lt_append_left (s : Text) : lt (s ++ t) (s ++ t') = lt t t' := by
  induction s with
  | nil => rfl
  | cons a s ih =>
    rw [Bool.eq_iff_iff] at ih ⊢
    rw [List.cons_append, List.cons_append, lt_cons_iff, ih]
    simp

private theorem lt_append_iff (h : s.length = s'.length) :
    lt (s ++ t) (s' ++ t') = true ↔ lt s s' = true ∨ s = s' ∧ lt t t' = true := by
  induction s generalizing s' with
  | nil =>
    obtain rfl := List.length_eq_zero_iff.mp h.symm
    simp [lt_irrefl]
  | cons a s ih =>
    cases s' with
    | nil => exact absurd h (by simp)
    | cons b s' =>
      rw [List.cons_append, List.cons_append, lt_cons_iff, lt_cons_iff, ih (Nat.succ.inj h), List.cons.injEq]
      constructor
      · rintro (hlt | ⟨he, hlt | ⟨rfl, ht⟩⟩)
        · exact .inl (.inl hlt)
        · exact .inl (.inr ⟨he, hlt⟩)
        · exact .inr ⟨⟨CodePoint.eq_of_val_eq he, rfl⟩, ht⟩
      · rintro ((hlt | ⟨he, hlt⟩) | ⟨⟨rfl, rfl⟩, ht⟩)
        · exact .inl hlt
        · exact .inr ⟨he, .inl hlt⟩
        · exact .inr ⟨rfl, .inr ⟨rfl, ht⟩⟩

end Text

namespace Decimal

private theorem value_cons (d : Nat) (ds : List Nat) : value (d :: ds) = d * 10 ^ ds.length + value ds := by
  rw [value, List.foldl_cons, foldl_value, Nat.mul_zero, Nat.zero_add]

private theorem lt_textOfDigits_iff {ds es : List Nat} (hd : ∀ d ∈ ds, d < 10) (he : ∀ d ∈ es, d < 10)
    (hl : ds.length = es.length) : Text.lt (textOfDigits ds) (textOfDigits es) = true ↔ value ds < value es := by
  induction ds generalizing es with
  | nil =>
    obtain rfl := List.length_eq_zero_iff.mp hl.symm
    simp [Text.lt_irrefl]
  | cons d ds ih =>
    cases es with
    | nil => exact absurd hl (by simp)
    | cons e es =>
      have hl : ds.length = es.length := Nat.succ.inj hl
      have hdv := val_ofDigit (hd d List.mem_cons_self)
      have hev := val_ofDigit (he e List.mem_cons_self)
      have hds : ∀ d ∈ ds, d < 10 := fun x hx => hd x (List.mem_cons_of_mem d hx)
      have hes : ∀ d ∈ es, d < 10 := fun x hx => he x (List.mem_cons_of_mem e hx)
      have hvd := value_lt hds
      have hve := value_lt hes
      have hcons : ∀ d ds, textOfDigits (d :: ds) = CodePoint.ofDigit d :: textOfDigits ds := fun _ _ => rfl
      rw [hcons, hcons, Text.lt_cons_iff, ih hds hes hl, hdv, hev, value_cons, value_cons, hl]
      rw [hl] at hvd
      generalize 10 ^ es.length = p at hvd hve ⊢
      constructor
      · rintro (hlt | ⟨heq, hlt⟩)
        · have hstep : (d + 1) * p ≤ e * p := Nat.mul_le_mul_right p (by omega)
          rw [Nat.succ_mul] at hstep
          omega
        · obtain rfl : d = e := by omega
          omega
      · intro hlt
        rcases Nat.lt_trichotomy d e with h | rfl | h
        · exact .inl (by omega)
        · exact .inr ⟨rfl, by omega⟩
        · have hstep : (e + 1) * p ≤ d * p := Nat.mul_le_mul_right p (by omega)
          rw [Nat.succ_mul] at hstep
          omega

/-- Numbers of one width are ordered before what stands behind them. -/
theorem lt_padded_append_iff {width m n : Nat} (hw : 1 ≤ width) (hm : m < 10 ^ width) (hn : n < 10 ^ width) {s t : Text} :
    Text.lt (padded width m ++ s) (padded width n ++ t) = true ↔ m < n ∨ m = n ∧ Text.lt s t = true := by
  have hl : (padded width m).length = (padded width n).length := by rw [length_padded hw hm, length_padded hw hn]
  have hd : (paddedDigits width m).length = (paddedDigits width n).length := by
    rw [length_paddedDigits hw hm, length_paddedDigits hw hn]
  have hlt : Text.lt (padded width m) (padded width n) = true ↔ m < n := by
    rw [padded_eq, padded_eq, lt_textOfDigits_iff (fun _ => lt_ten_of_mem_paddedDigits)
      (fun _ => lt_ten_of_mem_paddedDigits) hd, value_paddedDigits, value_paddedDigits]
  have heq : padded width m = padded width n ↔ m = n := ⟨padded_injective, fun h => h ▸ rfl⟩
  rw [Text.lt_append_iff hl, hlt, heq]

private theorem ofNat_year {y : Nat} (h : 1000 ≤ y) (h' : y ≤ 9999) : ofNat y = padded 4 y := by
  have hl : (digits y).length = 4 := by rw [StampReader.digits_year h h']; rfl
  rw [padded_eq, paddedDigits, hl]
  rfl

end Decimal

namespace Calendar

private theorem daysBeforeYear_le {y z : Nat} (hy : 1 ≤ y) (h : y ≤ z) : daysBeforeYear y ≤ daysBeforeYear z := by
  induction h with
  | refl => exact Nat.le_refl _
  | step hz ih =>
    rename_i z
    have hs := daysBeforeYear_succ (y := z) (Nat.le_trans hy hz)
    show daysBeforeYear y ≤ daysBeforeYear (z + 1)
    omega

private theorem monthStart_add_le {y m n : Nat} (h1 : 1 ≤ m) (h : m < n) (h12 : n ≤ 12) :
    Date.monthStart y m + daysInMonth y m ≤ Date.monthStart y n := by
  induction h with
  | refl =>
    show _ ≤ Date.monthStart y (m + 1)
    rw [monthStart_succ h1 (by omega)]
  | step hn ih =>
    rename_i n
    show _ ≤ Date.monthStart y (n + 1)
    have hrest := ih (by omega)
    have hmn : m + 1 ≤ n := hn
    rw [monthStart_succ (by omega) (by omega)]
    omega

namespace Date

/-- A date is before another one by its year, else by its month, else by its day. -/
def Before (d e : Date) : Prop :=
  d.year < e.year ∨ d.year = e.year ∧ (d.month < e.month ∨ d.month = e.month ∧ d.day < e.day)

private theorem days_lt_of_isValid {d : Date} (hd : d.isValid = true) : d.days < daysBeforeYear (d.year + 1) := by
  rw [isValid_iff] at hd
  have hlast : monthStart d.year 12 = 334 + if isLeap d.year then 1 else 0 := by simp [monthStart, daysBeforeMonth]
  have hmonth : monthStart d.year d.month + daysInMonth d.year d.month ≤ 365 + if isLeap d.year then 1 else 0 := by
    by_cases hm : d.month = 12
    · rw [hm, hlast, show daysInMonth d.year 12 = 31 from rfl]
      omega
    · have := monthStart_add_le hd.2.2.1 (show d.month < 12 by omega) (Nat.le_refl 12) (y := d.year)
      omega
  rw [daysBeforeYear_succ hd.1, days]
  omega

private theorem days_lt_of_before {d e : Date} (hd : d.isValid = true) (he : e.isValid = true) (h : Before d e) :
    d.days < e.days := by
  have hyear := days_lt_of_isValid hd
  rw [isValid_iff] at hd he
  rcases h with hy | ⟨hy, hm | ⟨hm, hday⟩⟩
  · have hle := daysBeforeYear_le (y := d.year + 1) (by omega) hy
    rw [days] at hyear ⊢
    rw [days]
    omega
  · have hle := monthStart_add_le (y := e.year) hd.2.2.1 hm he.2.2.2.1
    rw [days, days, hy]
    rw [hy] at hd
    omega
  · rw [days, days, hy, hm]
    omega

private theorem before_iff {d e : Date} (hd : d.isValid = true) (he : e.isValid = true) :
    Before d e ↔ d.days < e.days := by
  refine ⟨days_lt_of_before hd he, fun h => ?_⟩
  by_contra hn
  have hrest : Before e d ∨ d = e := by
    cases d
    cases e
    simp only [Before, mk.injEq] at hn ⊢
    omega
  rcases hrest with hb | rfl
  · have := days_lt_of_before he hd hb
    omega
  · exact absurd h (Nat.lt_irrefl _)

end Date

end Calendar

namespace Stamp

open Calendar Decimal

variable {s t : Text}

private theorem lt_dateText_append_iff {d e : Date} (hd : d.isValid = true) (he : e.isValid = true)
    (hyd : 1000 ≤ d.year) (hye : 1000 ≤ e.year) : Text.lt (dateText d ++ s) (dateText e ++ t) = true ↔
      d.days < e.days ∨ d = e ∧ Text.lt s t = true := by
  rw [← Date.before_iff hd he]
  rw [Date.isValid_iff] at hd he
  have hdm := daysInMonth_le d.year d.month
  have hem := daysInMonth_le e.year e.month
  simp only [dateText, List.append_assoc]
  rw [ofNat_year hyd hd.2.1, ofNat_year hye he.2.1, lt_padded_append_iff (by decide) (by omega) (by omega),
    Text.lt_append_left, lt_padded_append_iff (by decide) (by omega) (by omega), Text.lt_append_left,
    lt_padded_append_iff (by decide) (by omega) (by omega)]
  cases d
  cases e
  simp only [Date.Before, Date.mk.injEq]
  tauto

def milliOfDay (wall : Nat) : Nat := wall % Duration.perDay / Duration.perMilli

private theorem milliOfDay_eq (wall : Nat) : milliOfDay wall =
    1000 * (60 * (60 * (wall / Duration.perSecond / 3600 % 24) + wall / Duration.perSecond / 60 % 60) +
      wall / Duration.perSecond % 60) + wall % Duration.perSecond / Duration.perMilli := by
  simp only [milliOfDay, Duration.perDay, Duration.perHour, Duration.perSecond, Duration.perMilli]
  omega

private theorem lt_timeText_append_iff {v w : Nat} : Text.lt (timeText v ++ s) (timeText w ++ t) = true ↔
    milliOfDay v < milliOfDay w ∨ milliOfDay v = milliOfDay w ∧ Text.lt s t = true := by
  have hsixty : ∀ n, n % 60 < 60 := fun n => Nat.mod_lt n (by decide)
  have hmilli : ∀ n, n % Duration.perSecond / Duration.perMilli < 1000 := fun n =>
    Nat.div_lt_of_lt_mul (Nat.mod_lt n (by decide))
  simp only [timeText, List.append_assoc]
  rw [lt_padded_append_iff (by decide) (by omega) (by omega), Text.lt_append_left,
    lt_padded_append_iff (by decide) (by omega) (by omega), Text.lt_append_left,
    lt_padded_append_iff (by decide) (by omega) (by omega), Text.lt_append_left,
    lt_padded_append_iff (by decide) (hmilli v) (hmilli w), milliOfDay_eq, milliOfDay_eq]
  -- Of hours, minutes, seconds and milliseconds only the bounds are needed.
  have hvm := hsixty (v / Duration.perSecond / 60)
  have hvs := hsixty (v / Duration.perSecond)
  have hwm := hsixty (w / Duration.perSecond / 60)
  have hws := hsixty (w / Duration.perSecond)
  have hvn := hmilli v
  have hwn := hmilli w
  generalize v / Duration.perSecond / 3600 % 24 = vh, w / Duration.perSecond / 3600 % 24 = wh,
    v / Duration.perSecond / 60 % 60 = vm, w / Duration.perSecond / 60 % 60 = wm, v / Duration.perSecond % 60 = vs,
    w / Duration.perSecond % 60 = ws, v % Duration.perSecond / Duration.perMilli = vn,
    w % Duration.perSecond / Duration.perMilli = wn at hvm hvs hwm hws hvn hwn ⊢
  by_cases hst : Text.lt s t = true
  · simp only [hst, and_true]
    omega
  · simp only [hst, and_false, or_false, Bool.false_eq_true]
    omega

theorem ofUtcWall_eq_iff {u v : Instant} :
    ofUtcWall u.wall = ofUtcWall v.wall ↔ u.wall / Duration.perMilli = v.wall / Duration.perMilli := by
  refine ⟨ofUtcWall_injective u.inRange v.inRange, fun h => ?_⟩
  have hwall : u.truncate.wall = v.truncate.wall := by
    rw [Instant.wall_truncate, Instant.wall_truncate]
    simp only [Duration.perMilli] at h ⊢
    omega
  rw [← ofUtcWall_truncate u, hwall, ofUtcWall_truncate]

/-- Stamps of years of four digits are ordered as texts like the milliseconds that they were written of. -/
theorem lt_ofUtcWall_iff {v w : Nat} (hv : v < wallLimit) (hw : w < wallLimit)
    (hyv : 1000 ≤ (dateOf (v / Duration.perDay)).year) (hyw : 1000 ≤ (dateOf (w / Duration.perDay)).year) :
    Text.lt (ofUtcWall v) (ofUtcWall w) = true ↔ v / Duration.perMilli < w / Duration.perMilli := by
  have hday : ∀ {n : Nat}, n < wallLimit → n / Duration.perDay < dayLimit :=
    fun hn => Nat.div_lt_of_lt_mul (Nat.mul_comm _ _ ▸ hn)
  have hsame : dateOf (v / Duration.perDay) = dateOf (w / Duration.perDay) ↔
      v / Duration.perDay = w / Duration.perDay := by
    refine ⟨fun h => ?_, fun h => h ▸ rfl⟩
    rw [← days_dateOf (v / Duration.perDay), h, days_dateOf]
  simp only [ofUtcWall, List.append_assoc]
  rw [lt_dateText_append_iff (isValid_dateOf (hday hv)) (isValid_dateOf (hday hw)) hyv hyw, Text.lt_append_left,
    lt_timeText_append_iff, Text.lt_irrefl, days_dateOf, days_dateOf, hsame]
  have hsplit : ∀ n, n / Duration.perMilli = 86400000 * (n / Duration.perDay) + milliOfDay n ∧ milliOfDay n < 86400000 := by
    intro n
    simp only [milliOfDay, Duration.perDay, Duration.perHour, Duration.perSecond, Duration.perMilli]
    omega
  have hmv := hsplit v
  have hmw := hsplit w
  rw [hmv.1, hmw.1]
  simp only [Bool.false_eq_true, and_false, or_false]
  omega

end Stamp

namespace Instant

open Calendar

/-- The text of an instant that is hashed and stored, the instant that is read back from it, and the number in the key
of its object denote one millisecond: what is read back is the instant in UTC, truncated to that millisecond, and two
texts are equal or in order exactly if the milliseconds are. -/
theorem stamp_denotes_millisecond {a b u v : Instant} (ha : a.isAware = true) (hb : b.isAware = true)
    (hu : a.toUtc = .ok u) (hv : b.toUtc = .ok v) (hyu : 1000 ≤ (dateOf (u.wall / Duration.perDay)).year)
    (hyv : 1000 ≤ (dateOf (v.wall / Duration.perDay)).year) :
    ∃ s t m n, Stamp.write a = .ok s ∧ Stamp.write b = .ok t ∧ a.epochMillis = .ok m ∧ b.epochMillis = .ok n ∧
      StampReader.read s = .ok u.truncate ∧ u.truncate.moment = epochWall + Duration.perMilli * m ∧
      (s = t ↔ m = n) ∧ (Text.lt s t = true ↔ m < n) := by
  have hmu : (u.wall : Int) = a.moment := (ofWall_eq_ok_iff.mp hu).1
  have hmv : (v.wall : Int) = b.moment := (ofWall_eq_ok_iff.mp hv).1
  have hlt : u.wall / Duration.perMilli < v.wall / Duration.perMilli ↔ a.milli < b.milli := by
    simp only [milli, ← hmu, ← hmv, epochWall, Duration.perDay, Duration.perHour, Duration.perSecond, Duration.perMilli]
    omega
  have heq : u.wall / Duration.perMilli = v.wall / Duration.perMilli ↔ a.milli = b.milli := by
    simp only [milli, ← hmu, ← hmv, epochWall, Duration.perDay, Duration.perHour, Duration.perSecond, Duration.perMilli]
    omega
  refine ⟨_, _, _, _, Stamp.write_of_toUtc ha hu, Stamp.write_of_toUtc hb hv, HasUtc.epochMillis_eq_milli ⟨ha, u, hu⟩,
    HasUtc.epochMillis_eq_milli ⟨hb, v, hv⟩, StampReader.read_ofUtcWall (offset_of_toUtc hu) hyu, ?_, ?_, ?_⟩
  · rw [moment, offset_truncate, offset_of_toUtc hu, Option.getD_some, wall_truncate]
    simp only [milli, ← hmu, epochWall, Duration.perDay, Duration.perHour, Duration.perSecond, Duration.perMilli]
    omega
  · rw [← heq, Stamp.ofUtcWall_eq_iff]
  · rw [← hlt, Stamp.lt_ofUtcWall_iff u.inRange v.inRange hyu hyv]

/-- On both sides of 1970: half a millisecond before it, by a clock that is an hour ahead, and almost a millisecond
after its start. -/
theorem stamp_denotes_millisecond_across_epoch :
    let a : Instant := ⟨62135600399999500, some 3600000000, by decide⟩
    let b : Instant := ⟨62135596800000999, some 0, by decide⟩
    let u : Instant := ⟨62135596799999000, some 0, by decide⟩
    ∃ s t, Stamp.write a = .ok s ∧ Stamp.write b = .ok t ∧ a.epochMillis = .ok (-1) ∧ b.epochMillis = .ok 0 ∧
      StampReader.read s = .ok u ∧ Text.lt s t = true := by
  intro a b u
  have hu : a.toUtc = .ok ⟨62135596799999500, some 0, by decide⟩ := ofWall_eq_ok_iff.mpr ⟨by decide +kernel, rfl⟩
  have hv : b.toUtc = .ok b := toUtc_of_offset rfl
  obtain ⟨s, t, m, n, hs, ht, hm, hn, hread, -, -, hlt⟩ :=
    stamp_denotes_millisecond rfl rfl hu hv (by decide +kernel) (by decide +kernel)
  have hm1 : a.milli = -1 := by decide +kernel
  have hn0 : b.milli = 0 := by decide +kernel
  obtain rfl := (Except.ok.inj (hm.symm.trans (HasUtc.epochMillis_eq_milli ⟨rfl, _, hu⟩))).trans hm1
  obtain rfl := (Except.ok.inj (hn.symm.trans (HasUtc.epochMillis_eq_milli ⟨rfl, _, hv⟩))).trans hn0
  exact ⟨s, t, hs, ht, hm, hn, hread, hlt.mpr (by decide)⟩

end Instant

end AuditTrail
