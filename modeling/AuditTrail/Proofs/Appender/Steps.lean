import AuditTrail.Proofs.Appender.Takeover

/-!
# Steps of an appender

What an appender on any store does when the writer takes an item, when it commits a request and when a producer calls,
and what it takes to show that something is kept by everything that can happen to an appender (`Appender.Invariant`).
-/

namespace AuditTrail

namespace Appender

variable {W : Type} {store : Store W}

/-- Loading the tip fails and changes nothing but the store's world, or takes the tip from the last entry. -/
theorem loadTip_cases (store : Store W) (a : Appender) (s : Scene W) :
    (∃ f w, store.findLast s.world = (.error f, w) ∧ loadTip store (a, s) = (.error f, a, { s with world := w })) ∨
      ∃ last w, store.findLast s.world = (.ok last, w) ∧ loadTip store (a, s) = (.ok (Chain.expectedAfter last),
        { a with tip := (Chain.expectedAfter last).nonNull?, lastAt := last.map Entry.createdAt },
        { s with world := w }) := by
  rw [loadTip]
  cases hf : store.findLast s.world with
  | mk found w =>
    cases found with
    | error f => exact .inl ⟨f, w, rfl, rfl⟩
    | ok last =>
      refine .inr ⟨last, w, rfl, ?_⟩
      cases last with
      | none => rfl
      | some e => rfl

def holding (a : Appender) (ticket : Nat) (rest : List Item) : Appender :=
  ({ a with queue := rest }).settleTicket ticket .running

theorem takeNext_stop {a : Appender} {rest : List Item} (hq : a.queue = .stop :: rest) (s : Scene W) :
    takeNext store a s = ({ a with queue := rest, stopped := true }, s) := by
  rw [takeNext, hq]

section Request

variable {a : Appender} {ticket : Nat} {r : Request} {rest : List Item}

theorem takeNext_cancelled (hq : a.queue = .request ticket r :: rest) (hc : a.outcomes[ticket]? = some .cancelled)
    (s : Scene W) : takeNext store a s = ({ a with queue := rest }, s) := by
  rw [takeNext, hq]
  simp only [hc]

private theorem takeNext_request (hq : a.queue = .request ticket r :: rest) (hc : a.outcomes[ticket]? ≠ some .cancelled)
    (s : Scene W) :
    takeNext store a s =
      match (a.holding ticket rest).tip with
      | some t => ({ a.holding ticket rest with admitted := some ⟨ticket, r, t, s.watch.metrics.running⟩ }, s)
      | none =>
        match loadTip store (a.holding ticket rest, s) with
        | (.ok t, b, s') => ({ b with admitted := some ⟨ticket, r, t, s.watch.metrics.running⟩ }, s')
        | (.error f, b, s') => failAdmitted f ⟨ticket, r, .null, s.watch.metrics.running⟩ b s' := by
  rw [takeNext, hq]
  dsimp only
  split
  · exact absurd ‹_› hc
  · rfl

theorem takeNext_of_tip (hq : a.queue = .request ticket r :: rest) (hc : a.outcomes[ticket]? ≠ some .cancelled)
    {t : Value} (ht : a.tip = some t) (s : Scene W) :
    takeNext store a s =
      ({ a.holding ticket rest with admitted := some ⟨ticket, r, t, s.watch.metrics.running⟩ }, s) := by
  rw [takeNext_request hq hc, show (a.holding ticket rest).tip = some t from ht]

theorem takeNext_of_no_tip (hq : a.queue = .request ticket r :: rest) (hc : a.outcomes[ticket]? ≠ some .cancelled)
    (ht : a.tip = none) (s : Scene W) :
    (∃ f w, store.findLast s.world = (.error f, w) ∧ takeNext store a s =
      failAdmitted f ⟨ticket, r, .null, s.watch.metrics.running⟩ (a.holding ticket rest) { s with world := w }) ∨
    ∃ last w, store.findLast s.world = (.ok last, w) ∧ takeNext store a s = ({ a.holding ticket rest with
      tip := (Chain.expectedAfter last).nonNull?
      lastAt := last.map Entry.createdAt
      admitted := some ⟨ticket, r, Chain.expectedAfter last, s.watch.metrics.running⟩ }, { s with world := w }) := by
  have hnone : (a.holding ticket rest).tip = none := ht
  rw [takeNext_request hq hc]
  generalize a.holding ticket rest = b at hnone ⊢
  rw [hnone]
  rcases loadTip_cases store b s with ⟨f, w, hf, hl⟩ | ⟨last, w, hf, hl⟩
  · exact .inl ⟨f, w, hf, by rw [hl]⟩
  · exact .inr ⟨last, w, hf, by rw [hl]⟩

end Request

theorem start_cases (store : Store W) (a : Appender) (s : Scene W) :
    ∃ tip lastAt started, (start store (a, s)).2.1 = { a with tip := tip, lastAt := lastAt, started := started } := by
  rw [start]
  split
  · exact ⟨_, _, _, rfl⟩
  · split
    · exact ⟨_, _, _, rfl⟩
    · rcases loadTip_cases store a s with ⟨f, w, -, hl⟩ | ⟨last, w, -, hl⟩
      · rw [hl]
        exact ⟨_, _, _, rfl⟩
      · rw [hl]
        exact ⟨_, _, _, rfl⟩

/-- A submission queues an accepted request on an open appender, or at most fails a new ticket. -/
theorem submit_cases (r : Request) (a : Appender) (s : Scene W) :
    (∃ q, r.accepted = some q ∧ a.closed = false ∧ (submit r (a, s)).2.1 = { a with
      outcomes := a.outcomes ++ [.pending]
      queue := a.queue ++ [.request a.outcomes.length q]
      started := true }) ∨
    (submit r (a, s)).2.1 = a ∨ ∃ f, (submit r (a, s)).2.1 = { a with outcomes := a.outcomes ++ [.failed f] } := by
  cases hr : r.accepted with
  | none =>
    rcases submit_of_refused hr a s with ⟨f, he⟩ | ⟨f, he⟩
    · exact .inr (.inl (by rw [he]))
    · exact .inr (.inr ⟨f, by rw [he]⟩)
  | some q =>
    by_cases hc : a.closed = true
    · rw [Request.accepted] at hr
      cases hd : Canonical.toJson r.details with
      | error f => simp [hd] at hr
      | ok details => exact .inr (.inl (by rw [submit_of_closed hc hd]))
    · rw [Bool.not_eq_true] at hc
      exact .inl ⟨q, rfl, hc, by rw [submit_of_accepted hr hc]⟩

theorem failAdmitted_of_countable {p : Admitted} {s : Scene W} (hp : isUncountable p.request s.watch = false) (f : Fault)
    (a : Appender) : (failAdmitted f p a s).1 = ({ a with admitted := none }).settleTicket p.ticket (.failed f) := by
  rw [failAdmitted, hp]
  rfl

theorem watch_failAdmitted_of_countable {p : Admitted} {s : Scene W} (hp : isUncountable p.request s.watch = false)
    (f : Fault) (a : Appender) : (failAdmitted f p a s).2.watch =
      (reportFailure f p.request s.watch).count (·.countAppendDuration p.timed) := by
  rw [failAdmitted, hp]
  rfl

/-- What is kept of an appender by everything that can happen to it, if only certain requests are submitted. -/
structure Invariant (store : Store W) (allowed : Request → Prop) (P : Appender → Prop) : Prop where
  fresh : P .fresh
  start : ∀ a s, P a → P (Appender.start store (a, s)).2.1
  submit : ∀ r a (s : Scene W), allowed r → P a → P (Appender.submit r (a, s)).2.1
  cancel : ∀ n a, P a → P (a.cancel n).2
  takeNext : ∀ a s, a.admitted = none → P a → P (Appender.takeNext store a s).1
  commit : ∀ p a s, a.admitted = some p → P a → P (Appender.commit store p a s).1
  shut : ∀ a, P a → P { a with closed := true }
  stop : ∀ a, P a → P { a with closed := true, queue := a.queue ++ [.stop] }

namespace Invariant

variable {S : Type} {allowed : Request → Prop} {P : Appender → Prop}

private theorem work (h : Invariant store allowed P) (held : Bool) (n : Nat) {a : Appender} {s : Scene W} (ha : P a) :
    P (Appender.work store held n a s).1 := by
  induction n generalizing a s with
  | zero => exact ha
  | succ n ih =>
    rw [Appender.work]
    cases hp : a.admitted with
    | some p =>
      cases held with
      | true => exact ha
      | false => exact ih (h.commit p a s hp ha)
    | none =>
      by_cases hq : (a.stopped || a.queue.isEmpty) = true
      · simp only [hq, if_true]
        exact ha
      · simp only [hq, Bool.false_eq_true, if_false]
        exact ih (h.takeNext a s hp ha)

theorem step (h : Invariant store allowed P) (strike : S → W → W) {m : Move S} (hm : ∀ r, m = .submit r → allowed r)
    {s : Session W} (hs : P s.appender) : P (Session.step store strike m s).appender := by
  cases m with
  | start => exact h.start _ _ hs
  | submit r => exact h.submit r _ _ (hm r rfl) hs
  | cancel n => exact h.cancel n _ hs
  | work n => exact h.work false n hs
  | close held timeout =>
    exact close_induction (P := fun a _ => P a) (fun a _ => h.shut a) (fun a _ => h.stop a) (fun _ _ _ ha => ha)
      (fun n _ _ ha => h.work held n ha) timeout hs
  | outage o => exact hs
  | replace clock => exact h.fresh

/-- What everything that can happen to an appender keeps, every run keeps. -/
theorem run (h : Invariant store allowed P) (strike : S → W → W) {moves : List (Move S)}
    (hm : ∀ r, .submit r ∈ moves → allowed r) {s : Session W} (hs : P s.appender) :
    P (Session.run store strike moves s).appender := by
  induction moves generalizing s with
  | nil => exact hs
  | cons m rest ih =>
    have hstep := h.step strike (fun r hr => hm r (hr ▸ List.mem_cons_self)) hs
    exact ih (fun r hr => hm r (List.mem_cons_of_mem m hr)) hstep

end Invariant

end Appender

end AuditTrail
