import AuditTrail.Proofs.Time.Stamps
import AuditTrail.Time.StampReader

/-!
# Reading stamps back

A stamp of a year from 1000 on is read as the millisecond that it was written of (`read_ofUtcWall`).
An earlier year has fewer than the four digits that the reader wants, so that its stamps are refused
(`read_of_shortYear`).
-/

namespace AuditTrail.StampReader

open Calendar Decimal

private theorem digits?_pair {a b : Nat} (ha : a < 10) (hb : b < 10) (rest : Text) :
    digits? 2 (CodePoint.ofDigit a :: CodePoint.ofDigit b :: rest) = some (10 * a + b, rest) := by
  simp [digits?, CodePoint.digit?_ofDigit ha, CodePoint.digit?_ofDigit hb, value]

private theorem digits?_triple {a b c : Nat} (ha : a < 10) (hb : b < 10) (hc : c < 10) (rest : Text) :
    digits? 3 (CodePoint.ofDigit a :: CodePoint.ofDigit b :: CodePoint.ofDigit c :: rest) =
      some (10 * (10 * a + b) + c, rest) := by
  simp [digits?, CodePoint.digit?_ofDigit ha, CodePoint.digit?_ofDigit hb, CodePoint.digit?_ofDigit hc, value]

private theorem digits?_year {a b c d : Nat} (ha : a < 10) (hb : b < 10) (hc : c < 10) (hd : d < 10) (rest : Text) :
    digits? 4 (CodePoint.ofDigit a :: CodePoint.ofDigit b :: CodePoint.ofDigit c :: CodePoint.ofDigit d :: rest) =
      some (10 * (10 * (10 * a + b) + c) + d, rest) := by
  simp [digits?, CodePoint.digit?_ofDigit ha, CodePoint.digit?_ofDigit hb, CodePoint.digit?_ofDigit hc,
    CodePoint.digit?_ofDigit hd, value]

private theorem exists_pair {n : Nat} (h : n < 100) : ∃ a b, a < 10 ∧ b < 10 ∧ 10 * a + b = n ∧
    padded 2 n = [CodePoint.ofDigit a, CodePoint.ofDigit b] := by
  have hl := length_paddedDigits (show 1 ≤ 2 by decide) h
  have hv := value_paddedDigits 2 n
  have hd : ∀ d ∈ paddedDigits 2 n, d < 10 := fun _ => lt_ten_of_mem_paddedDigits
  rw [padded_eq]
  match paddedDigits 2 n, hl, hv, hd with
  | [a, b], _, hv, hd => exact ⟨a, b, hd a (by simp), hd b (by simp), by rw [← hv]; simp [value], rfl⟩

private theorem exists_triple {n : Nat} (h : n < 1000) : ∃ a b c, a < 10 ∧ b < 10 ∧ c < 10 ∧
    10 * (10 * a + b) + c = n ∧ padded 3 n = [CodePoint.ofDigit a, CodePoint.ofDigit b, CodePoint.ofDigit c] := by
  have hl := length_paddedDigits (show 1 ≤ 3 by decide) h
  have hv := value_paddedDigits 3 n
  have hd : ∀ d ∈ paddedDigits 3 n, d < 10 := fun _ => lt_ten_of_mem_paddedDigits
  rw [padded_eq]
  match paddedDigits 3 n, hl, hv, hd with
  | [a, b, c], _, hv, hd =>
    exact ⟨a, b, c, hd a (by simp), hd b (by simp), hd c (by simp), by rw [← hv]; simp [value], rfl⟩

def timeOfDay (wall : Nat) : Clock :=
  ⟨wall / Duration.perSecond / 3600 % 24, wall / Duration.perSecond / 60 % 60, wall / Duration.perSecond % 60,
    wall % Duration.perSecond / Duration.perMilli * 1000, true⟩

private theorem clock?_timeText (wall : Nat) : clock? (Stamp.timeText wall) = some (timeOfDay wall) := by
  simp only [Stamp.timeText, timeOfDay]
  have hf : wall % Duration.perSecond / Duration.perMilli < 1000 := by
    simp only [Duration.perSecond, Duration.perMilli]
    omega
  generalize wall / Duration.perSecond = seconds at *
  generalize wall % Duration.perSecond / Duration.perMilli = millis at *
  obtain ⟨h1, h2, hh1, hh2, hh, ehour⟩ := exists_pair (n := seconds / 3600 % 24) (by omega)
  obtain ⟨m1, m2, hm1, hm2, hm, eminute⟩ := exists_pair (n := seconds / 60 % 60) (by omega)
  obtain ⟨s1, s2, hs1, hs2, hs, esecond⟩ := exists_pair (n := seconds % 60) (by omega)
  obtain ⟨f1, f2, f3, hf1, hf2, hf3, hf, emilli⟩ := exists_triple hf
  rw [ehour, eminute, esecond, emilli, ← hh, ← hm, ← hs, ← hf]
  have hcolon : lit ":" = [CodePoint.ofChar ':'] := rfl
  have hpoint : lit "." = [CodePoint.ofChar '.'] := rfl
  simp only [hcolon, hpoint, List.cons_append, List.nil_append]
  have hfrac : fraction? [CodePoint.ofDigit f1, CodePoint.ofDigit f2, CodePoint.ofDigit f3] =
      some ((10 * (10 * f1 + f2) + f3) * 1000, true) := by
    have hd := digits?_triple hf1 hf2 hf3 []
    simp [fraction?, hd, atEnd]
  have hv : (CodePoint.ofChar ':').val = 58 := rfl
  have hp : (CodePoint.ofChar '.').val = 46 := rfl
  simp [clock?, components?, digits?_pair hh1 hh2, digits?_pair hm1 hm2, digits?_pair hs1 hs2, startsWith, hv, hp,
    hfrac]

private theorem opensOffset_of_mem_timeText {wall : Nat} {c : CodePoint} (h : c ∈ Stamp.timeText wall) :
    opensOffset c = false := by
  have hd : 48 ≤ c.val ∧ c.val ≤ 57 ∨ c = CodePoint.ofChar ':' ∨ c = CodePoint.ofChar '.' := by
    have hcolon : lit ":" = [CodePoint.ofChar ':'] := rfl
    have hpoint : lit "." = [CodePoint.ofChar '.'] := rfl
    simp only [Stamp.timeText, hcolon, hpoint, List.mem_append, List.mem_singleton] at h
    rcases h with (((((h | h) | h) | h) | h) | h) | h
    · exact .inl (Stamp.val_of_mem_padded h)
    · exact .inr (.inl h)
    · exact .inl (Stamp.val_of_mem_padded h)
    · exact .inr (.inl h)
    · exact .inl (Stamp.val_of_mem_padded h)
    · exact .inr (.inr h)
    · exact .inl (Stamp.val_of_mem_padded h)
  rcases hd with hd | rfl | rfl
  · simp only [opensOffset, Bool.or_eq_false_iff, beq_eq_false_iff_ne]
    omega
  · rfl
  · rfl

private theorem time?_timeText (wall : Nat) :
    time? (Stamp.timeText wall ++ lit "+00:00") = some (timeOfDay wall, some 0) := by
  have hno : ∀ c ∈ Stamp.timeText wall, (!opensOffset c) = true := fun c hc => by
    rw [opensOffset_of_mem_timeText hc]
    rfl
  have hl : lit "+00:00" = CodePoint.ofChar '+' :: lit "00:00" := rfl
  have htake : (Stamp.timeText wall ++ lit "+00:00").takeWhile (fun c => !opensOffset c) = Stamp.timeText wall := by
    rw [List.takeWhile_append_of_pos hno, hl, List.takeWhile_cons_of_neg (by decide), List.append_nil]
  have hdrop : (Stamp.timeText wall ++ lit "+00:00").dropWhile (fun c => !opensOffset c) = lit "+00:00" := by
    rw [List.dropWhile_append_of_pos hno, hl, List.dropWhile_cons_of_neg (by decide)]
  have ho : offset? false (lit "00:00") = some 0 := by decide +kernel
  have hv : (CodePoint.ofChar '+').val = 43 := rfl
  rw [time?, htake, hdrop, clock?_timeText, hl]
  simp [hv, ho]

theorem digits_year {y : Nat} (h : 1000 ≤ y) (h' : y ≤ 9999) :
    digits y = [y / 1000, y / 100 % 10, y / 10 % 10, y % 10] := by
  have h1 : y / 10 / 10 = y / 100 := by omega
  have h2 : y / 100 / 10 = y / 1000 := by omega
  rw [digits_of_ge (by omega), digits_of_ge (n := y / 10) (by omega), h1, digits_of_ge (n := y / 100) (by omega), h2,
    digits_of_lt (by omega)]
  rfl

private theorem exists_dateText {d : Date} (hd : d.isValid = true) (hy : 1000 ≤ d.year) :
    ∃ a b c e m1 m2 d1 d2, a < 10 ∧ b < 10 ∧ c < 10 ∧ e < 10 ∧ m1 < 10 ∧ m2 < 10 ∧ d1 < 10 ∧ d2 < 10 ∧
      10 * (10 * (10 * a + b) + c) + e = d.year ∧ 10 * m1 + m2 = d.month ∧ 10 * d1 + d2 = d.day ∧
      Stamp.dateText d = [CodePoint.ofDigit a, CodePoint.ofDigit b, CodePoint.ofDigit c, CodePoint.ofDigit e,
        CodePoint.ofChar '-', CodePoint.ofDigit m1, CodePoint.ofDigit m2, CodePoint.ofChar '-',
        CodePoint.ofDigit d1, CodePoint.ofDigit d2] := by
  rw [Date.isValid_iff] at hd
  have hday := daysInMonth_le d.year d.month
  have hyear : ofNat d.year = textOfDigits (digits d.year) := rfl
  have hhyphen : lit "-" = [CodePoint.ofChar '-'] := rfl
  obtain ⟨m1, m2, hm1, hm2, hm, em⟩ := exists_pair (n := d.month) (by omega)
  obtain ⟨d1, d2, hd1, hd2, hdd, ed⟩ := exists_pair (n := d.day) (by omega)
  refine ⟨d.year / 1000, d.year / 100 % 10, d.year / 10 % 10, d.year % 10, m1, m2, d1, d2, by omega, by omega, by omega,
    by omega, hm1, hm2, hd1, hd2, by omega, hm, hdd, ?_⟩
  rw [Stamp.dateText, hyear, digits_year hy hd.2.1, em, ed, hhyphen]
  rfl

private theorem date?_dateText {d : Date} (hd : d.isValid = true) (hy : 1000 ≤ d.year) :
    date? (Stamp.dateText d) = some d.days := by
  obtain ⟨a, b, c, e, m1, m2, d1, d2, ha, hb, hc, he, hm1, hm2, hd1, hd2, hyear, hmonth, hday, ht⟩ :=
    exists_dateText hd hy
  have hv : (CodePoint.ofChar '-').val = 45 := rfl
  have hw : ¬48 + m1 = 87 := by omega
  have hdate : (⟨d.year, d.month, d.day⟩ : Date) = d := rfl
  rw [ht]
  simp [date?, monthDay?, digits?_year ha hb hc he, digits?_pair hm1 hm2, digits?_pair hd1 hd2, startsWith, hv,
    val_ofDigit hm1, hw, hyear, hmonth, hday, hdate, hd]

private theorem dateLength_dateText {d : Date} (hd : d.isValid = true) (hy : 1000 ≤ d.year) (c : CodePoint)
    (rest : Text) :
    dateLength (Stamp.dateText d ++ c :: rest) = 10 := by
  obtain ⟨_, _, _, _, m1, _, _, _, -, -, -, -, hm1, -, -, -, -, -, -, ht⟩ := exists_dateText hd hy
  have hv : (CodePoint.ofChar '-').val = 45 := rfl
  have hw : ¬48 + m1 = 87 := by omega
  rw [ht]
  simp [dateLength, hv, val_ofDigit hm1, hw]

private theorem length_dateText {d : Date} (hd : d.isValid = true) (hy : 1000 ≤ d.year) :
    (Stamp.dateText d).length = 10 := by
  obtain ⟨_, _, _, _, _, _, _, _, -, -, -, -, -, -, -, -, -, -, -, ht⟩ := exists_dateText hd hy
  rw [ht]
  rfl

private theorem plainSeparator_of_isWellFormed {t : Text} (h : t.isWellFormed = true) : plainSeparator t = t := by
  have hn : [7, 8, 10].find? (fun i => ((t[i]?).map CodePoint.isSurrogate).getD false) = none := by
    rw [List.find?_eq_none]
    intro i _
    cases hi : t[i]? with
    | none => simp
    | some c =>
      have hc := List.all_eq_true.mp h c (List.mem_of_getElem? hi)
      simpa using hc
  rw [plainSeparator, hn]

private theorem expandZulu_ofUtcWall (wall : Nat) : expandZulu (Stamp.ofUtcWall wall) =
    Stamp.dateText (dateOf (wall / Duration.perDay)) ++
      CodePoint.ofChar 'T' :: (Stamp.timeText wall ++ lit "+00:00") := by
  have hz : Text.dropBack? (lit "Z") (Stamp.ofUtcWall wall) =
      some (Stamp.dateText (dateOf (wall / Duration.perDay)) ++ lit "T" ++ Stamp.timeText wall) :=
    Text.dropBack?_eq_some_iff.mpr rfl
  have hl : lit "T" = [CodePoint.ofChar 'T'] := rfl
  rw [expandZulu, hz, hl]
  simp only [List.append_assoc, List.cons_append, List.nil_append]

theorem isWellFormed_ofUtcWall (wall : Nat) : (Stamp.ofUtcWall wall).isWellFormed = true := by
  apply List.all_eq_true.mpr
  intro c hc
  have hv := Stamp.val_of_mem_ofUtcWall hc
  simp only [CodePoint.isSurrogate, Bool.not_eq_true', Bool.and_eq_false_iff, decide_eq_false_iff_not]
  omega

private theorem isWellFormed_expandZulu (wall : Nat) : (expandZulu (Stamp.ofUtcWall wall)).isWellFormed = true := by
  have hw := isWellFormed_ofUtcWall wall
  rw [expandZulu]
  split
  · rename_i front hf
    rw [Text.dropBack?_eq_some_iff] at hf
    rw [hf, Text.isWellFormed_append, Bool.and_eq_true] at hw
    rw [Text.isWellFormed_append, hw.1, Text.isWellFormed_lit]
    rfl
  · exact hw

private theorem ofDayTime?_wall {u : Instant} (ho : u.offset = some 0) :
    ofDayTime? (u.wall / Duration.perDay) (timeOfDay u.wall) (some 0) = some u.truncate := by
  obtain ⟨wall, offset, hu⟩ := u
  obtain rfl : offset = some 0 := ho
  dsimp only
  have ht : (timeOfDay wall).isTimeOfDay = true := by
    have hh : wall / Duration.perSecond / 3600 % 24 < 24 := Nat.mod_lt _ (by decide)
    have hm : wall / Duration.perSecond / 60 % 60 < 60 := Nat.mod_lt _ (by decide)
    have hs : wall / Duration.perSecond % 60 < 60 := Nat.mod_lt _ (by decide)
    simp [timeOfDay, Clock.isTimeOfDay, hh, hm, hs]
  have hwall : wall / Duration.perDay * Duration.perDay + (timeOfDay wall).seconds * Duration.perSecond +
      (timeOfDay wall).micros = wall - wall % Duration.perMilli := by
    simp only [timeOfDay, Clock.seconds, Duration.perDay, Duration.perHour, Duration.perSecond, Duration.perMilli]
    omega
  have hlt : wall - wall % Duration.perMilli < wallLimit := Nat.lt_of_le_of_lt (Nat.sub_le _ _) hu
  rw [ofDayTime?, if_pos ht, hwall, Instant.ofWall?, dif_pos ⟨Int.natCast_nonneg _, by rw [Int.toNat_natCast]; exact hlt⟩]
  rfl

/-- A stamp of a year from 1000 on is read as the millisecond that it was written of. -/
theorem read_ofUtcWall {u : Instant} (ho : u.offset = some 0)
    (hy : 1000 ≤ (dateOf (u.wall / Duration.perDay)).year) : read (Stamp.ofUtcWall u.wall) = .ok u.truncate := by
  have hday : u.wall / Duration.perDay < dayLimit := Nat.div_lt_of_lt_mul (Nat.mul_comm _ _ ▸ u.inRange)
  have hd := isValid_dateOf hday
  have hlen := length_dateText hd hy
  have hw := isWellFormed_expandZulu u.wall
  have hutc : u.truncate.toUtc = .ok u.truncate := by
    rw [Instant.toUtc, Instant.ofWall_eq_ok_iff, Instant.moment, Instant.offset_truncate, ho]
    exact ⟨(Int.sub_zero _).symm, rfl⟩
  rw [expandZulu_ofUtcWall] at hw
  have hl : ¬(Stamp.dateText (dateOf (u.wall / Duration.perDay)) ++
      CodePoint.ofChar 'T' :: (Stamp.timeText u.wall ++ lit "+00:00")).length < 7 := by
    rw [List.length_append, hlen]
    omega
  have hi : instant? (expandZulu (Stamp.ofUtcWall u.wall)) = some u.truncate := by
    rw [expandZulu_ofUtcWall, instant?, plainSeparator_of_isWellFormed hw]
    dsimp only
    rw [dateLength_dateText hd hy, List.take_left' hlen, List.drop_left' hlen, date?_dateText hd hy, days_dateOf, hw]
    simp only [hl, decide_false, Bool.not_true, Bool.or_false, Bool.false_eq_true, if_false, time?_timeText,
      ofDayTime?_wall ho, bind, Option.bind]
  rw [read, hi]
  exact hutc

private theorem digits?_eq_none {n : Nat} {s : Text} {c : CodePoint} (hs : s.length < n) (hc : c.digit? = none)
    (r : Text) (k : Nat) : digits? n ((s ++ c :: r).take k) = none := by
  have hsub : (((s ++ c :: r).take k).take n).Sublist ((s ++ c :: r).take n) := by
    rw [List.take_take, Nat.min_comm, ← List.take_take]
    exact List.take_sublist k _
  have hle := (hsub.filterMap CodePoint.digit?).length_le
  obtain ⟨m, hm⟩ : ∃ m, n - s.length = m + 1 := ⟨n - s.length - 1, by omega⟩
  have hfew : (((s ++ c :: r).take n).filterMap CodePoint.digit?).length < n := by
    have h1 := List.length_filterMap_le CodePoint.digit? s
    have h2 := List.length_filterMap_le CodePoint.digit? (r.take m)
    have h3 := List.length_take_le m r
    rw [List.take_append, List.take_of_length_le (by omega), hm, List.take_succ_cons, List.filterMap_append,
      List.filterMap_cons_none hc, List.length_append]
    omega
  rw [digits?, if_neg (by omega)]

/-- A stamp of a year before 1000 is refused. -/
theorem read_of_shortYear {wall : Nat} (hy : (dateOf (wall / Duration.perDay)).year < 1000) :
    read (Stamp.ofUtcWall wall) = .error (.platform .malformedValue) := by
  have hw := isWellFormed_expandZulu wall
  have hfew : ∀ n, date? ((expandZulu (Stamp.ofUtcWall wall)).take n) = none := by
    intro n
    have hlen : (ofNat (dateOf (wall / Duration.perDay)).year).length < 4 := by
      have hle := length_digits_le (show 1 ≤ 3 by decide) hy
      rw [ofNat, textOfDigits, List.length_map]
      omega
    have hl : lit "-" = [CodePoint.ofChar '-'] := rfl
    rw [expandZulu_ofUtcWall, Stamp.dateText, hl]
    simp only [List.append_assoc, List.cons_append, List.nil_append]
    rw [date?, digits?_eq_none hlen rfl]
    rfl
  have hi : instant? (expandZulu (Stamp.ofUtcWall wall)) = none := by
    rw [instant?, plainSeparator_of_isWellFormed hw]
    dsimp only
    rw [hfew]
    split
    · rfl
    · rfl
  rw [read, hi]

end AuditTrail.StampReader
