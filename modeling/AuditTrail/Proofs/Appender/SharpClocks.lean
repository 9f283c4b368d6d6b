import AuditTrail.Proofs.Appender.PersistedChain
import AuditTrail.Proofs.Time.StampOrder

/-!
# Clocks that read whole milliseconds

A stamp denotes its instant exactly if this is a whole millisecond in UTC (`Instant.IsSharp.denoted`). The wall clock
reads nothing else. The stepping clock begins with such an instant, but what comes next is as its step has it: it reads
whole milliseconds only, exactly if its second reading, if there is one, is a whole millisecond
(`Clock.IsStock.gives_isSharp_iff`).
-/

namespace AuditTrail

namespace Instant

/-- A reading in UTC of a whole millisecond. -/
structure IsSharp (t : Instant) : Prop where
  utc : t.offset = some 0
  whole : t.isWholeMilli = true

variable {t u : Instant}

theorem isSharp_truncate (h : t.offset = some 0) : t.truncate.IsSharp := ⟨h, isWholeMilli_truncate t⟩

namespace IsSharp

theorem isAware (h : t.IsSharp) : t.isAware = true := isAware_of_offset h.utc

theorem hasUtc (h : t.IsSharp) : t.HasUtc := ⟨h.isAware, t, toUtc_of_offset h.utc⟩

theorem mod_eq (h : t.IsSharp) : t.wall % Duration.perMilli = 0 := beq_iff_eq.mp h.whole

theorem moment_eq (h : t.IsSharp) : t.moment = t.wall := by
  rw [moment, h.utc, Option.getD_some, Int.sub_zero]

theorem eq_of_wall (ht : t.IsSharp) (hu : u.IsSharp) (h : t.wall = u.wall) : t = u := by
  obtain ⟨w, o, hw⟩ := t
  obtain ⟨w', o', hw'⟩ := u
  obtain rfl : w = w' := h
  obtain rfl : o = o' := ht.utc.trans hu.utc.symm
  rfl

private theorem of_shift (h : t.IsSharp) {step : Int} (hu : t.shift step = .ok u) :
    u.IsSharp ↔ step % Duration.perMilli = 0 := by
  obtain ⟨hw, ho⟩ := ofWall_eq_ok_iff.mp hu
  have hm := h.mod_eq
  constructor
  · intro hs
    have hum := hs.mod_eq
    simp only [Duration.perMilli] at hm hum ⊢
    omega
  · intro hstep
    refine ⟨ho.trans h.utc, ?_⟩
    rw [isWholeMilli, beq_iff_eq]
    simp only [Duration.perMilli] at hm hstep ⊢
    omega

theorem later (h : t.IsSharp) (hu : t.shift Duration.perMilli = .ok u) : u.IsSharp := (h.of_shift hu).mpr (by decide)

/-- The stamp of a whole millisecond in UTC is the stamp of no other one, and from the year 1000 on it is read as that
very instant. -/
theorem denoted (h : t.IsSharp) : ∃ stamp, Stamp.write t = .ok stamp ∧
    (∀ u : Instant, u.IsSharp → Stamp.write u = .ok stamp → u = t) ∧
    (1000 ≤ (Calendar.dateOf (t.wall / Duration.perDay)).year → StampReader.read stamp = .ok t) := by
  refine ⟨_, Stamp.write_of_toUtc h.isAware (toUtc_of_offset h.utc), ?_, ?_⟩
  · intro u hu hwrite
    have hstamp := Except.ok.inj ((Stamp.write_of_toUtc hu.isAware (toUtc_of_offset hu.utc)).symm.trans hwrite)
    have hmilli := Stamp.ofUtcWall_eq_iff.mp hstamp
    have hum := hu.mod_eq
    have htm := h.mod_eq
    apply hu.eq_of_wall h
    simp only [Duration.perMilli] at hmilli hum htm
    omega
  · intro hyear
    rw [StampReader.read_ofUtcWall h.utc hyear, truncate_of_isWholeMilli h.whole]

end IsSharp

end Instant

namespace Clock

/-- The clocks that come with the log: a wall clock in UTC, and one that steps from an aware instant. -/
inductive IsStock : Clock → Prop
  | wall {first : Instant} {later : List Instant} (h : ∀ t ∈ first :: later, t.offset = some 0) :
      IsStock (Clock.wall first later)
  | stepping {start : Instant} {step : Int} {c : Clock} (h : stepFrom start step = .ok c) : IsStock c

/-- The second reading of the clock is no whole millisecond. -/
def Strays (c : Clock) : Prop := ∃ t, c.now.2.now.1 = .ok t ∧ t.isWholeMilli = false

variable {p : Instant → Prop}

private theorem gives_of_now {c : Clock} (h : ∀ t, c.now.1 = .ok t → p t) (hlater : c.now.2.Gives p) : c.Gives p := by
  intro n
  cases n with
  | zero => exact fun t ht => absurd ht List.not_mem_nil
  | succ n =>
    intro t ht
    rcases List.mem_cons.mp ht with he | hm
    · exact h t he.symm
    · exact hlater n t hm

private theorem gives_of_stuck {c : Clock} {f : Fault} (h : c.now = (.error f, c)) : c.Gives p := by
  intro n
  induction n with
  | zero => exact fun t ht => absurd ht List.not_mem_nil
  | succ n ih =>
    intro t ht
    rw [readings, h] at ht
    exact ih t ((List.mem_cons.mp ht).resolve_left (by simp))

private theorem now_stepping (t : Instant) (step : Int) :
    (∃ u, t.shift step = .ok u ∧ (stepping t step).now = (.ok t, .stepping u step)) ∨
      ∃ f, t.shift step = .error f ∧ (stepping t step).now = (.error f, .stepping t step) := by
  rw [now]
  cases t.shift step with
  | ok u => exact .inl ⟨u, rfl, rfl⟩
  | error f => exact .inr ⟨f, rfl, rfl⟩

theorem shift_of_second {t v : Instant} {step : Int} (h : (stepping t step).now.2.now.1 = .ok v) :
    t.shift step = .ok v := by
  rcases now_stepping t step with ⟨u, hu, hnow⟩ | ⟨f, -, hnow⟩
  · rw [hnow] at h
    rcases now_stepping u step with ⟨w, -, hnow'⟩ | ⟨f, -, hnow'⟩
    · rw [hnow'] at h
      exact Except.ok.inj h ▸ hu
    · rw [hnow'] at h
      exact absurd h (by simp)
  · rw [hnow, hnow] at h
    exact absurd h (by simp)

theorem gives_stepping {step : Int} (hstep : ∀ t u, p t → t.shift step = .ok u → p u) {t : Instant} (ht : p t) :
    (stepping t step).Gives p := by
  intro n
  induction n generalizing t with
  | zero => exact fun u hu => absurd hu List.not_mem_nil
  | succ n ih =>
    rcases now_stepping t step with ⟨u, hu, hnow⟩ | ⟨f, -, hnow⟩
    · intro v hv
      rw [readings, hnow] at hv
      rcases List.mem_cons.mp hv with he | hm
      · exact Except.ok.inj he ▸ ht
      · exact ih (hstep t u ht hu) v hm
    · exact gives_of_stuck hnow (n + 1)

theorem gives_wall {first : Instant} {later : List Instant} (h : ∀ t ∈ first :: later, t.offset = some 0) :
    (wall first later).Gives Instant.IsSharp := by
  induction later generalizing first with
  | nil => exact gives_scripted (Instant.isSharp_truncate (h first List.mem_cons_self))
  | cons t later ih =>
    refine gives_of_now ?_ (ih fun u hu => h u (List.mem_cons_of_mem first hu))
    intro u hu
    exact Except.ok.inj hu ▸ Instant.isSharp_truncate (h first List.mem_cons_self)

/-- The second reading of a stepping clock is no whole millisecond exactly if there is one and the step is not of whole
milliseconds. -/
theorem strays_iff_of_stepFrom {start : Instant} {step : Int} {c : Clock} (h : stepFrom start step = .ok c) :
    c.Strays ↔ step % Duration.perMilli ≠ 0 ∧ ∃ t, c.now.2.now.1 = .ok t := by
  obtain ⟨u, hu, rfl⟩ := stepFrom_eq_ok h
  have hsharp : u.truncate.IsSharp := Instant.isSharp_truncate (Instant.offset_of_toUtc hu)
  have hwhole : ∀ t, u.truncate.shift step = .ok t → (t.isWholeMilli = false ↔ step % Duration.perMilli ≠ 0) := by
    intro t ht
    have hoffset : t.offset = some 0 := (Instant.ofWall_eq_ok_iff.mp ht).2.trans hsharp.utc
    rw [← Bool.not_eq_true, ne_eq, not_iff_not, ← hsharp.of_shift ht]
    exact ⟨fun hw => ⟨hoffset, hw⟩, fun hs => hs.whole⟩
  constructor
  · rintro ⟨t, ht, hw⟩
    exact ⟨(hwhole t (shift_of_second ht)).mp hw, t, ht⟩
  · rintro ⟨hstep, t, ht⟩
    exact ⟨t, ht, (hwhole t (shift_of_second ht)).mpr hstep⟩

/-- A clock of the log reads whole milliseconds in UTC only, unless its second reading is none. -/
theorem IsStock.gives_isSharp_iff {c : Clock} (h : c.IsStock) : c.Gives Instant.IsSharp ↔ ¬c.Strays := by
  constructor
  · rintro hgives ⟨t, ht, hw⟩
    rw [(hgives.later.now ht).whole] at hw
    exact absurd hw (by decide)
  · intro hno
    cases h with
    | wall h => exact gives_wall h
    | @stepping start step _ h =>
      by_cases hstep : step % Duration.perMilli = 0
      · obtain ⟨u, hu, rfl⟩ := stepFrom_eq_ok h
        exact gives_stepping (fun t v ht hv => (ht.of_shift hv).mpr hstep)
          (Instant.isSharp_truncate (Instant.offset_of_toUtc hu))
      · -- There is no second reading, and none after it.
        have hnone : ¬∃ t, c.now.2.now.1 = .ok t := fun ht => hno ((strays_iff_of_stepFrom h).mpr ⟨hstep, ht⟩)
        obtain ⟨u, hu, rfl⟩ := stepFrom_eq_ok h
        rcases now_stepping u.truncate step with ⟨v, -, hnow⟩ | ⟨f, -, hnow⟩
        · refine gives_of_now ?_ ?_
          · intro t ht
            rw [hnow] at ht
            exact Except.ok.inj ht ▸ Instant.isSharp_truncate (Instant.offset_of_toUtc hu)
          · rw [hnow] at hnone ⊢
            rcases now_stepping v step with ⟨w, -, hnow'⟩ | ⟨f, -, hnow'⟩
            · exact absurd ⟨v, by rw [hnow']⟩ hnone
            · exact gives_of_stuck hnow'
        · exact gives_of_stuck hnow

end Clock

end AuditTrail
