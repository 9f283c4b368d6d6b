import AuditTrail.Proofs.Appender.Figures
import AuditTrail.Proofs.Canonical.Oversized

/-!
# Requests that cannot be queued

An open appender that is handed details without a canonical text gives a ticket that has failed, queues nothing, and
reports the failure once (`Appender.submit_of_unencodable`). The one exception are details whose encoding comes upon an
integer with too many digits: then the call itself fails, and nobody is told (`Appender.submit_fails_iff`).
-/

namespace AuditTrail

/-- A failure was reported once: it was counted by the event type of its request, if failures are counted, and one
notice of it was handed to the emitter. -/
structure Watch.Reports (f : Fault) (r : Request) (w w' : Watch) : Prop where
  running : w'.metrics.running = w.metrics.running
  appends : w'.metrics.appends = w.metrics.appends
  failures : ∀ t, w'.metrics.failures.total t =
    w.metrics.failures.total t + if w.metrics.running = true ∧ Appender.label r = t then 1 else 0
  notified : ∃ (v : Watch) (channel : Channel) (refusal : Text), v.emitter = w.emitter ∧ v.notices = w.notices ∧
    w' = v.notify channel refusal (.writeFailed f.message r.eventType r.source)
  recorded : w.emitter.Records → w'.notices = w.notices ++ [.writeFailed f.message r.eventType r.source]

namespace Watch

private theorem metrics_notify (channel : Channel) (refusal : Text) (n : Notice) (w : Watch) :
    (w.notify channel refusal n).metrics = w.metrics := by
  rw [notify, emit]
  cases w.emitter <;> rfl

private theorem notices_notify {w : Watch} (h : w.emitter.Records) (channel : Channel) (refusal : Text) (n : Notice) :
    (w.notify channel refusal n).notices = w.notices ++ [n] := by
  obtain ⟨log, he⟩ := h n w rfl
  rw [notify, he]

end Watch

namespace Appender

variable {W : Type} {a : Appender} {r : Request}

private theorem reports_reportFailure (f : Fault) (r : Request) (w : Watch) : w.Reports f r (reportFailure f r w) := by
  let v := (w.count (·.countFailure (label r))).add (failedLine f r)
  have hcount : v.metrics =
      if w.metrics.running then { w.metrics with failures := w.metrics.failures.increment (label r) } else w.metrics := rfl
  have hmetrics : (reportFailure f r w).metrics = v.metrics := Watch.metrics_notify _ _ _ v
  rw [hcount] at hmetrics
  refine ⟨?_, ?_, fun t => ?_, ⟨v, _, _, rfl, rfl, rfl⟩, fun h => Watch.notices_notify (w := v) h _ _ _⟩
  · rw [hmetrics]
    split <;> rfl
  · rw [hmetrics]
    split <;> rfl
  · rw [hmetrics]
    by_cases hr : w.metrics.running = true
    · simp only [hr, if_true, true_and, Counts.total_increment]
    · simp only [hr, Bool.false_eq_true, if_false, false_and, Nat.add_zero]

private theorem isUncountable_of_isText (hr : r.eventType.isText = true) (w : Watch) : isUncountable r w = false := by
  rw [isUncountable, Option.isNone_eq_false_iff.mpr (Value.isSome_display?_of_isText hr), Bool.and_false]

/-- Whether the appender is open or not, details without a canonical text fail a ticket, which is reported once, unless
the encoding came upon an integer with too many digits. -/
theorem submit_of_unencodable (hr : r.eventType.isText = true) (a : Appender) (s : Scene W) {f : Fault}
    (hd : Canonical.encode r.details = .error f) (hf : f ≠ .oversized) :
    submit r (a, s) = (.ok a.outcomes.length, { a with outcomes := a.outcomes ++ [.failed f] },
      { s with watch := reportFailure f r s.watch }) := by
  obtain ⟨why, rfl⟩ := (Canonical.encode_eq_error r.details f hd).resolve_right fun h => hf h.1
  rw [submit, Canonical.toJson, hd]
  simp only [Except.map, isUncountable_of_isText hr, Bool.false_eq_true, if_false]

theorem submit_of_oversized (a : Appender) (s : Scene W) (hd : Canonical.encode r.details = .error .oversized) :
    submit r (a, s) = (.error .oversized, a, s) := by
  rw [submit, Canonical.toJson, hd]
  rfl

private theorem submit_of_encodable (ho : a.closed = false) (s : Scene W) {t : Text}
    (hd : Canonical.encode r.details = .ok t) :
    submit r (a, s) = (.ok a.outcomes.length, { a with
      outcomes := a.outcomes ++ [.pending]
      queue := a.queue ++ [.request a.outcomes.length { r with details := Canonical.listed r.details }]
      started := true }, s) := by
  rw [submit, Canonical.toJson, hd]
  simp only [Except.map, ho, Bool.false_eq_true, if_false]

/-- An open appender is handed a request with a text for its event type. The call fails exactly if the encoding of the
details comes upon an integer with too many digits, and then it does nothing else. For any other details it returns a
ticket: if they have no canonical text, the ticket has failed, nothing is queued, and the failure is reported once; and
if they have one, they hold no such integer, and the request is queued. -/
theorem submit_fails_iff (ho : a.closed = false) (s : Scene W) (hr : r.eventType.isText = true) :
    ((∃ f, (submit r (a, s)).1 = .error f) ↔ Canonical.encode r.details = .error .oversized) ∧
      (Canonical.encode r.details = .error .oversized → r.details.HoldsOversized ∧ (submit r (a, s)).2 = (a, s)) ∧
      (∀ f, Canonical.encode r.details = .error f → f ≠ .oversized → ∃ watch,
        submit r (a, s) = (.ok a.outcomes.length, { a with outcomes := a.outcomes ++ [.failed f] },
          { s with watch := watch }) ∧ s.watch.Reports f r watch) ∧
      ∀ t, Canonical.encode r.details = .ok t → ¬r.details.HoldsOversized ∧
        submit r (a, s) = (.ok a.outcomes.length, { a with
          outcomes := a.outcomes ++ [.pending]
          queue := a.queue ++ [.request a.outcomes.length { r with details := Canonical.listed r.details }]
          started := true }, s) := by
  refine ⟨⟨?_, fun hd => ⟨_, by rw [submit_of_oversized a s hd]⟩⟩, fun hd => ⟨?_, ?_⟩, fun f hd hf => ?_, fun t hd => ?_⟩
  · rintro ⟨f, hfail⟩
    cases hd : Canonical.encode r.details with
    | ok t =>
      rw [submit_of_encodable ho s hd] at hfail
      exact absurd hfail (by simp)
    | error g =>
      by_cases hg : g = .oversized
      · rw [hg]
      · rw [submit_of_unencodable hr a s hd hg] at hfail
        exact absurd hfail (by simp)
  · rcases Canonical.encode_eq_error r.details _ hd with ⟨why, he⟩ | ⟨-, hh⟩
    · exact absurd he (by simp [Fault.oversized])
    · exact hh
  · rw [submit_of_oversized a s hd]
  · exact ⟨_, submit_of_unencodable hr a s hd hf, reports_reportFailure f r s.watch⟩
  · exact ⟨Canonical.not_holdsOversized_of_encode hd, submit_of_encodable ho s hd⟩

/-- An object in the details fails a ticket and is reported; an integer of one digit too many ends the call. -/
theorem submit_fails_iff_of_huge :
    let huge : Request := ⟨.text (lit "e"), .text (lit "m"), .list [.int Decimal.firstOversized], .null⟩
    let odd : Request := { huge with details := .list [.object (lit "set")] }
    let watch : Watch := { Watch.ofEmitter (.ofListeners [.archive]) false with
      metrics := { Metrics.off with running := true } }
    let s : Scene Unit := ⟨(), default, watch⟩
    (∃ f, (submit huge (fresh, s)).1 = .error f) ∧ (submit huge (fresh, s)).2 = (fresh, s) ∧
      (submit odd (fresh, s)).1 = .ok 0 ∧ (submit odd (fresh, s)).2.1.queue = [] ∧
      (submit odd (fresh, s)).2.2.watch.metrics.failures.total (lit "e") = 1 ∧
      (submit odd (fresh, s)).2.2.watch.notices.length = 1 := by
  intro huge odd watch s
  have hlimit : Decimal.isOversized Decimal.firstOversized = true := by
    rw [Decimal.isOversized, Int.natAbs_natCast, decide_eq_true (Nat.le_refl _)]
  have hhuge : Canonical.encode huge.details = .error .oversized := by
    simp only [huge, Canonical.encode, Canonical.encodeItems, Canonical.encodeInt, hlimit, if_true]
    rfl
  obtain ⟨hfails, hnothing, -, -⟩ := submit_fails_iff (a := fresh) rfl s (r := huge) rfl
  obtain ⟨-, -, hodd, -⟩ := submit_fails_iff (a := fresh) rfl s (r := odd) rfl
  obtain ⟨w, hsubmit, hreports⟩ := hodd (.encoding (.unsupported (lit "set"))) rfl (by simp [Fault.oversized])
  have hrecords : watch.emitter.Records := Emitter.records_ofListeners fun _ => rfl
  refine ⟨hfails.mpr hhuge, (hnothing hhuge).2, ?_, ?_, ?_, ?_⟩
  · rw [hsubmit]
    rfl
  · rw [hsubmit]
    rfl
  · rw [hsubmit]
    show w.metrics.failures.total (lit "e") = 1
    rw [hreports.failures]
    rfl
  · rw [hsubmit]
    show w.notices.length = 1
    rw [hreports.recorded hrecords]
    rfl

end Appender

end AuditTrail
