import AuditTrail.Proofs.Appender.Errands
import AuditTrail.Proofs.Appender.Provenance

/-!
# Queue order

Whatever callers, withdrawals and the writer do in whatever order, no accepted request is lost, duplicated or reordered,
and the entries are linked in the order of the queue (`Crew.requests_kept_in_order`).
-/

namespace AuditTrail

open Appender

namespace Desk.Sound

variable {W : Type} {Q : Request → Prop} {d : Desk W}

private theorem exists_now (h : Sound Q d) :
    ∃ now : List Nat, now.length ≤ 1 ∧ d.journal.taken = d.journal.ended ++ now ∧
    ∀ p, d.appender.admitted = some p → now = [p.ticket] := by
  refine ⟨_, ?_, h.record.work, ?_⟩
  · rw [List.length_append]
    cases hh : d.hand with
    | none => cases d.appender.admitted <;> simp
    | some held => simp [h.busy (by rw [hh]; rfl)]
  · intro p hp
    rw [hp, (h.of_admitted hp).1]
    rfl

private theorem staffed_of_waiting (h : Sound Q d) {n : Nat} {r : Request} (hr : .request n r ∈ d.appender.queue) :
    d.appender.started = true ∧ d.appender.stopped = false := by
  have hwaits : ¬(d.appender.started = false ∨ d.appender.stopped = true) := by
    intro hrest
    rw [(h.resting hrest).1] at hr
    exact absurd hr List.not_mem_nil
  rwa [not_or, Bool.not_eq_false, Bool.not_eq_true] at hwaits

/-- A writer that has stopped leaves nothing behind, and no ticket is left undecided. -/
private theorem settled_of_stopped (h : Sound Q d) (hs : d.appender.stopped = true) :
    d.appender.queue = [] ∧ d.journal.ended = d.journal.queued ∧ ∀ o ∈ d.appender.outcomes, o.isDecided = true := by
  obtain ⟨hq, hh, hp⟩ := h.resting (.inr hs)
  have tally := h.tidy.tally
  have order := h.record.order
  have work := h.record.work
  rw [Desk.whole_of_hand hh, queued, hq, hp] at tally
  rw [queued, hq] at order
  rw [hh, hp] at work
  refine ⟨hq, ?_, ?_⟩
  · rw [order, work]
    simp
  · intro o ho
    obtain ⟨n, hn⟩ := List.mem_iff_getElem?.mp ho
    cases o with
    | pending => exact absurd (tally.pending n hn) List.not_mem_nil
    | running => exact absurd ((tally.running n).mp hn) (by simp)
    | _ => rfl

end Desk.Sound

namespace Crew

variable {W : Type} {Q : Request → Prop} {R : W → List Entry → Prop} {B : Value → Prop}

/-- No request of a crew was lost, duplicated or reordered. -/
structure InOrder (c : Crew W) : Prop where
  /-- A ticket is queued once, and tickets are taken in the order of the queue. -/
  distinct : c.desk.journal.queued.Nodup
  taken : c.desk.journal.queued = c.desk.journal.taken ++ c.desk.appender.queued
  /-- Those that the writer took have ended in the same order, but for one at most, which it is at. -/
  ended : ∃ now : List Nat, now.length ≤ 1 ∧ c.desk.journal.taken = c.desk.journal.ended ++ now ∧
    ∀ p, c.desk.appender.admitted = some p → now = [p.ticket]
  /-- A ticket that has ended says so. It was dropped without ever running, or it was stored or has failed. -/
  fates : ∀ n o, .ended n o ∈ c.desk.journal → c.desk.appender.outcomes[n]? = some o ∧
    ((o = .cancelled ∧ .running n ∉ c.desk.journal) ∨
      ((∃ e, o = .stored e) ∨ ∃ f, o = .failed f) ∧ .running n ∈ c.desk.journal)
  /-- A caller whose request was accepted has the ticket with which it was queued, and an entry is that of its request. -/
  answers : ∀ (i n : Nat) r, c.callers[i]? = some (.gone (.append r) (.ok (some n))) → r.accepted = some r →
    .queued n r ∈ c.desk.journal
  requests : ∀ n e, .ended n (.stored e) ∈ c.desk.journal → .queued n e.request ∈ c.desk.journal
  /-- Nothing is queued after the closing. -/
  closed : c.desk.appender.closed = true ↔ .closed ∈ c.desk.journal
  behind : ∀ front n r back, c.desk.journal = front ++ .queued n r :: back → .closed ∉ front
  /-- While a request is in the queue there is a writer, and a writer was started once at most. -/
  writer : ∀ n r, .request n r ∈ c.desk.appender.queue →
    c.desk.appender.started = true ∧ c.desk.appender.stopped = false
  hirings : c.desk.journal.hirings = c.desk.appender.started.toNat
  /-- A writer that has stopped leaves nothing behind, and no ticket is left undecided. -/
  stopped : c.desk.appender.stopped = true → c.desk.appender.queue = [] ∧
    c.desk.journal.ended = c.desk.journal.queued ∧ ∀ o ∈ c.desk.appender.outcomes, o.isDecided = true
  /-- The entries are linked in the order of the queue. -/
  linked : ∃ t, Chain.Linked t c.desk.journal.stored

private theorem fate_of_decided {o : Outcome} (hd : o.isDecided = true) (hc : o ≠ .cancelled) :
    (∃ e, o = .stored e) ∨ ∃ f, o = .failed f := by
  cases o with
  | stored e => exact .inl ⟨e, rfl⟩
  | failed f => exact .inr ⟨f, rfl⟩
  | cancelled => exact absurd rfl hc
  | _ => exact absurd hd (by decide)

private theorem linked_of_anchored {d : Desk W} (h : d.Anchored R B) (hne : d.journal.stored ≠ []) :
    ∃ b, B b ∧ Chain.Linked b d.journal.stored := by
  obtain ⟨t, ht⟩ := Option.isSome_iff_exists.mp (h.known hne)
  obtain ⟨b, hb, hl, -⟩ := h.tip t ht
  exact ⟨b, hb, hl⟩

private theorem inOrder_of_safe {c : Crew W} (h : Safe Q Desk.Faithful c) (ha : c.desk.Anchored R B) : InOrder c := by
  obtain ⟨-, record, doors, -⟩ := h.sound
  refine ⟨record.distinct, record.order, h.sound.exists_now, ?_, ?_, h.kept.stored, doors.shut, ?_,
    fun _ _ => h.sound.staffed_of_waiting, doors.hired, h.sound.settled_of_stopped, ?_⟩
  · intro n o he
    obtain ⟨ho, hd, hc⟩ := record.fates n o he
    refine ⟨ho, ?_⟩
    by_cases hcancelled : o = .cancelled
    · exact .inl ⟨hcancelled, hc.mp hcancelled⟩
    · exact .inr ⟨fate_of_decided hd hcancelled, Classical.not_not.mp fun hr => hcancelled (hc.mpr hr)⟩
  · intro i n r hi hr
    have hfits : (Stage.gone (.append r) (.ok (some n))).Fits Q c.desk := h.fits i _ hi
    exact hfits r n rfl rfl hr
  · intro front n r back hj hm
    have hafter := doors.after
    rw [hj] at hafter
    have hnone := (List.pairwise_append.mp hafter).2.2 _ hm (.queued n r) List.mem_cons_self rfl
    exact absurd hnone (by simp [Event.queued?])
  · by_cases hne : c.desk.journal.stored = []
    · rw [hne]
      exact ⟨.null, trivial⟩
    · obtain ⟨b, -, hl⟩ := linked_of_anchored ha hne
      exact ⟨b, hl⟩

/-- However the stages of any number of callers, withdrawals, outages and the steps of the writer are interleaved, on
whatever store, no accepted request is lost, duplicated or reordered. A store in memory gets the entries behind its rows,
linked in the order of the queue from the last row that there was. The event types of the requests are texts, or at
least have a text to be counted by. -/
theorem requests_kept_in_order {S : Type} (h : Handle) (strike : S → Site → Site) (site : Site) (clock : Clock)
    (watch : Watch) (limit : Option Nat) (acts : List (Act S))
    (hl : ∀ r, .call (.append r) ∈ acts → r.eventType.display?.isSome = true) :
    let c := run h.store strike limit acts (fresh site clock watch)
    InOrder c ∧ (h = .memory → (∀ o s, (strike o s).memory.entries = s.memory.entries) →
      c.desk.scene.world.memory.entries = site.memory.entries ++ c.desk.journal.stored ∧
        ∀ fs, Ordered.sort site.memory.entries = .ok fs →
          Chain.Linked (Chain.expectedAfter fs.getLast?) c.desk.journal.stored) := by
  intro c
  let Q : Request → Prop := fun r => r.eventType.display?.isSome = true
  have hQ : ∀ r, Q r → r.eventType.display?.isSome = true := fun _ hr => hr
  have hallowed : ∀ r, .call (.append r) ∈ acts → ∀ q, r.accepted = some q → Q q := fun r hr q hq => by
    rw [show Q q = (q.eventType.display?.isSome = true) from rfl, Request.eventType_of_accepted hq]
    exact hl r hr
  have hid : ∀ dr w e w', h.store.create dr w = (.ok e, w') → ∃ id, e = dr.withId id := fun _ _ _ _ hc =>
    h.exists_id_of_create hc
  have hfaithful : Safe Q Desk.Faithful c :=
    safe_run hQ (Desk.Faithful.invariant hQ hid) (.fresh site clock watch (.fresh site clock watch)) hallowed
  have hanchored : Safe Q (Desk.Anchored (fun _ _ => True) fun _ => True) c :=
    safe_run hQ (Desk.Anchored.invariant hQ (h.backs strike)) (.fresh site clock watch (.fresh trivial clock watch)) hallowed
  refine ⟨inOrder_of_safe hfaithful hanchored.kept, ?_⟩
  rintro rfl hs
  have hrows : Safe Q (Desk.Anchored (fun s es => s.memory.entries = site.memory.entries ++ es)
      fun b => ∀ fs, Ordered.sort site.memory.entries = .ok fs → b = Chain.expectedAfter fs.getLast?) c :=
    safe_run hQ (Desk.Anchored.invariant hQ (Handle.backs_memory hs _))
      (.fresh site clock watch (.fresh (List.append_nil _).symm clock watch)) hallowed
  refine ⟨hrows.kept.rows, fun fs hfs => ?_⟩
  by_cases hne : c.desk.journal.stored = []
  · rw [hne]
    trivial
  · obtain ⟨b, hb, hlinked⟩ := linked_of_anchored hrows.kept hne
    exact hb fs hfs ▸ hlinked

/-- Two callers append while a third one closes and a fourth one comes too late. The second request is withdrawn while the
first one runs, and then it is too late to withdraw that. When the writer has stopped, one entry is stored and the other
ticket was dropped. -/
theorem requests_kept_in_order_until_stopped :
    let t : Instant := ⟨63900000000000000, some 0, by decide⟩
    let r : Request := ⟨.text (lit "login|ok"), .text (lit "auth"), .map [(.text (lit "n"), .int 1)], .null⟩
    let strike : List Fault → Site → Site := fun faults s => { s with memory := Memory.strike faults s.memory }
    let go : Nat → Nat → List (Act (List Fault)) := fun times caller => List.replicate times (.advance caller)
    let acts : List (Act (List Fault)) := [.call (.append r), .call (.append r), .call .close, .call (.append r)] ++
      go 4 0 ++ go 1 2 ++ go 3 0 ++ [.take] ++ go 6 1 ++ [.look, .cancel 1, .cancel 0] ++ go 2 2 ++ go 2 3 ++ go 2 2 ++
      go 3 3 ++ [.commit, .take, .look, .take]
    let c := run Handle.memory.store strike (some 2) acts (fresh default (.scripted (.ok t) []) default)
    c.desk.appender.stopped = true ∧ c.desk.journal.queued = [0, 1] ∧ c.desk.journal.ended = [0, 1] ∧
      c.desk.scene.world.memory.entries.length = 1 ∧ c.desk.appender.queue = [] ∧
      (∀ o ∈ c.desk.appender.outcomes, o.isDecided = true) ∧
      Chain.Linked (.text genesisHash) c.desk.scene.world.memory.entries := by
  intro t r strike go acts
  have hl : ∀ q, .call (.append q) ∈ acts → q.eventType.display?.isSome = true := by
    intro q hq
    obtain rfl : q = r := by simpa [acts, go] using hq
    rfl
  have hd : let c := run Handle.memory.store strike (some 2) acts (fresh default (.scripted (.ok t) []) default)
      c.desk.appender.stopped = true ∧ c.desk.journal.queued = [0, 1] ∧
        c.desk.scene.world.memory.entries.length = 1 := by
    decide +kernel
  have hmain := requests_kept_in_order .memory strike default (.scripted (.ok t) []) default (some 2) acts hl
  generalize run Handle.memory.store strike (some 2) acts (fresh default (.scripted (.ok t) []) default) = c at hd hmain ⊢
  obtain ⟨horder, hmemory⟩ := hmain
  obtain ⟨hstopped, hqueued, hone⟩ := hd
  obtain ⟨hqueue, hended, hdecided⟩ := horder.stopped hstopped
  obtain ⟨hrows, hlinked⟩ := hmemory rfl fun _ _ => rfl
  have hsame : c.desk.scene.world.memory.entries = c.desk.journal.stored := hrows
  refine ⟨hstopped, hqueued, hended.trans hqueued, hone, hqueue, hdecided, ?_⟩
  have hsort : Ordered.sort ([] : List Entry) = .ok [] := by
    rw [Ordered.sort, List.mergeSort_nil]
    rfl
  rw [hsame]
  exact hlinked [] hsort

end Crew

end AuditTrail
