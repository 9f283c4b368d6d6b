import AuditTrail.Proofs.Appender.Tallies

/-!
# Failing requests

A request can fail when the store is asked for the tip, when the clock is read, when its instant is made later than the
last one, when its hash is computed and when it is created (`Appender.Fails`). A step that fails the request leaves the
appender where it stood (`Appender.work_of_fails`), and a commit that does not fail stores its request
(`Appender.commit_of_not_fails`).
-/

namespace AuditTrail

namespace Appender

variable {W : Type} {store : Store W} {a : Appender} {s : Scene W}

/-- Why the next step of the writer fails the request of a ticket, and with which fault. -/
inductive Fails (store : Store W) (a : Appender) (s : Scene W) (ticket : Nat) : Fault → Prop
  | tip {r : Request} {rest : List Item} {f : Fault} (ha : a.admitted = none) (hs : a.stopped = false)
    (hq : a.queue = .request ticket r :: rest) (hc : a.outcomes[ticket]? ≠ some .cancelled) (ht : a.tip = none)
    (hf : (store.findLast s.world).1 = .error f) : Fails store a s ticket f
  | clock {p : Admitted} {f : Fault} (ha : a.admitted = some p) (hn : p.ticket = ticket)
    (hf : s.clock.now.1 = .error f) : Fails store a s ticket f
  | stamp {p : Admitted} {reading : Instant} {f : Fault} (ha : a.admitted = some p) (hn : p.ticket = ticket)
    (hr : s.clock.now.1 = .ok reading) (hf : stampAfter a.lastAt reading = .error f) : Fails store a s ticket f
  | hash {p : Admitted} {reading t : Instant} {f : Fault} (ha : a.admitted = some p) (hn : p.ticket = ticket)
    (hr : s.clock.now.1 = .ok reading) (hs : stampAfter a.lastAt reading = .ok t)
    (hf : Link.hash p.previousHash p.request.eventType t p.request.details = .error f) : Fails store a s ticket f
  | create {p : Admitted} {reading : Instant} {hash : Text} {d : Draft} {f : Fault} (ha : a.admitted = some p)
    (hn : p.ticket = ticket) (hr : s.clock.now.1 = .ok reading) (hl : link p a.lastAt reading = .ok (hash, d))
    (hf : (store.create d s.world).1 = .error f) : Fails store a s ticket f

theorem work_one_of_admitted {p : Admitted} (ha : a.admitted = some p) : work store false 1 a s = commit store p a s := by
  rw [work, ha]
  rfl

theorem work_one_of_request {ticket : Nat} {r : Request} {rest : List Item} (ha : a.admitted = none)
    (hs : a.stopped = false) (hq : a.queue = .request ticket r :: rest) :
    work store false 1 a s = takeNext store a s := by
  rw [work, ha]
  simp only [hs, hq, List.isEmpty_cons, Bool.or_self, Bool.false_eq_true, if_false]
  rfl

/-- What the writer holds when a request fails: the request itself, at an appender that stands where it stood. -/
structure HoldsAt (a : Appender) (ticket : Nat) (p : Admitted) (b : Appender) : Prop where
  ticket : p.ticket = ticket
  request : p.request ∈ a.awaited
  tip : b.tip = a.tip
  lastAt : b.lastAt = a.lastAt
  stopped : b.stopped = a.stopped
  outcomes : b.outcomes.length = a.outcomes.length

private theorem HoldsAt.of_admitted {p : Admitted} {ticket : Nat} (ha : a.admitted = some p) (hn : p.ticket = ticket) :
    HoldsAt a ticket p a :=
  ⟨hn, by rw [awaited, ha]; exact List.mem_cons_self, rfl, rfl, rfl, rfl⟩

/-- A failing step fails the request that it holds, and the store was asked in vain or not at all. -/
theorem work_of_fails {ticket : Nat} {f : Fault} (h : Fails store a s ticket f) :
    ∃ p b clock w, HoldsAt a ticket p b ∧ work store false 1 a s = failAdmitted f p b { s with clock := clock, world := w } ∧
      (w = s.world ∨ store.findLast s.world = (.error f, w) ∨ ∃ d, store.create d s.world = (.error f, w)) := by
  cases h with
  | tip ha hs hq hc ht hf =>
    rename_i r rest
    rw [work_one_of_request ha hs hq]
    have hr : r ∈ a.awaited := List.mem_append_right _ (by rw [hq]; exact List.mem_cons_self)
    rcases takeNext_of_no_tip hq hc ht s with ⟨g, w, hg, he⟩ | ⟨last, w, hl, -⟩
    · obtain rfl : g = f := Except.error.inj ((congrArg Prod.fst hg).symm.trans hf)
      refine ⟨_, a.holding ticket rest, s.clock, w, ⟨rfl, hr, rfl, rfl, rfl, ?_⟩, he, .inr (.inl hg)⟩
      simp [holding, settleTicket]
    · exact absurd ((congrArg Prod.fst hl).symm.trans hf) (by simp)
  | clock ha hn hf =>
    refine ⟨_, a, s.clock.now.2, s.world, HoldsAt.of_admitted ha hn, ?_, .inl rfl⟩
    rw [work_one_of_admitted ha, commit]
    simp only [hf]
    rfl
  | stamp ha hn hr hf =>
    refine ⟨_, a, s.clock.now.2, s.world, HoldsAt.of_admitted ha hn, ?_, .inl rfl⟩
    rw [work_one_of_admitted ha, commit]
    simp only [hr, bind, Except.bind, link, hf]
  | hash ha hn hr hs hf =>
    refine ⟨_, a, s.clock.now.2, s.world, HoldsAt.of_admitted ha hn, ?_, .inl rfl⟩
    rw [work_one_of_admitted ha, commit]
    simp only [hr, bind, Except.bind, link, hs, hf]
  | create ha hn hr hl hf =>
    rename_i p reading hash d
    refine ⟨p, a, s.clock.now.2, (store.create d s.world).2, HoldsAt.of_admitted ha hn, ?_, .inr (.inr ⟨d, Prod.ext hf rfl⟩)⟩
    rw [work_one_of_admitted ha, commit]
    simp only [hr, bind, Except.bind, hl]
    rw [show store.create d s.world = (.error f, (store.create d s.world).2) from Prod.ext hf rfl]

/-- A commit that does not fail stores its request. -/
theorem commit_of_not_fails {p : Admitted} (ha : a.admitted = some p) (h : ∀ f, ¬Fails store a s p.ticket f) :
    ∃ reading hash d e w, s.clock.now.1 = .ok reading ∧ link p a.lastAt reading = .ok (hash, d) ∧
      store.create d s.world = (.ok e, w) ∧
      commit store p a s = storeAdmitted p d hash e a { s with clock := s.clock.now.2, world := w } := by
  have hreading : ∃ reading, s.clock.now.1 = .ok reading := by
    cases hr : s.clock.now.1 with
    | error f => exact absurd (.clock ha rfl hr) (h f)
    | ok reading => exact ⟨reading, rfl⟩
  obtain ⟨reading, hr⟩ := hreading
  have hlink : ∃ linked, link p a.lastAt reading = .ok linked := by
    rw [link]
    cases hs : stampAfter a.lastAt reading with
    | error f => exact absurd (.stamp ha rfl hr hs) (h f)
    | ok t =>
      cases hh : Link.hash p.previousHash p.request.eventType t p.request.details with
      | error f => exact absurd (.hash ha rfl hr hs hh) (h f)
      | ok hash =>
        simp only [bind, Except.bind, hh]
        exact ⟨_, rfl⟩
  obtain ⟨⟨hash, d⟩, hl⟩ := hlink
  cases hc : store.create d s.world with
  | mk created w =>
    cases created with
    | error f => exact absurd (.create ha rfl hr hl (congrArg Prod.fst hc)) (h f)
    | ok e =>
      refine ⟨reading, hash, d, e, w, hr, hl, hc, ?_⟩
      rw [commit]
      simp only [hr, bind, Except.bind, hl, hc]

end Appender

end AuditTrail
