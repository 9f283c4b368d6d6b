import AuditTrail.Proofs.Appender.Ledger

/-!
# Appenders that take over from each other

An appender that knows a tip knows what its store would answer about the last row. So it makes no difference when one
appender is closed and another one comes after it: if the store suffers no outage, the rows are those of a ledger to
which the requests are added one by one (`Session.foresees_relay`), whichever appender is asked for them.
-/

namespace AuditTrail

/-- The request as it waits in the queue, if its details have a canonical text. -/
def Request.accepted (r : Request) : Option Request :=
  match Canonical.toJson r.details with
  | .ok details => some { r with details := details }
  | .error _ => none

theorem Request.eventType_of_accepted {r q : Request} (h : r.accepted = some q) : q.eventType = r.eventType := by
  rw [accepted] at h
  cases hd : Canonical.toJson r.details with
  | error f => simp [hd] at h
  | ok details =>
    rw [hd] at h
    rw [← Option.some.inj h]

def Ledger.offer (l : Ledger) (r : Request) : Ledger :=
  match r.accepted with
  | some r => l.add r
  | none => l

/-- What happens to an open appender whose store suffers no outage. -/
inductive Call where
  | start
  | submit (r : Request)
  | work (steps : Nat)

namespace Call

def move {S : Type} : Call → Move S
  | .start => .start
  | .submit r => .submit r
  | .work n => .work n

def request? : Call → Option Request
  | .submit r => some r
  | _ => none

end Call

/-- The calls of an appender until it is closed, and the time that its writer is then given to finish. -/
structure Tenure where
  calls : List Call
  timeout : Option Int

/-- The appender is closed, and a fresh one comes after it with the same clock. -/
def Tenure.moves {S : Type} (t : Tenure) : List (Move S) :=
  t.calls.map Call.move ++ [.close false t.timeout, .replace none]

/-- Appenders that take over from each other, and the calls of the last one, which is not closed. -/
structure Relay where
  tenures : List Tenure
  last : List Call

namespace Relay

def moves {S : Type} (p : Relay) : List (Move S) := p.tenures.flatMap Tenure.moves ++ p.last.map Call.move

def requests (p : Relay) : List Request := (p.tenures.flatMap Tenure.calls ++ p.last).filterMap Call.request?

end Relay

namespace Appender

variable {W : Type} {a : Appender}

private theorem start_of_calm {s : Scene Memory} (hs : Steady a s) (ho : a.closed = false) :
    (start Memory.store (a, s)).2 = (a, s) ∨ ∃ tip lastAt watch, (start Memory.store (a, s)).2 =
      ({ a with tip := tip, lastAt := lastAt, started := true }, { s with watch := watch }) := by
  rw [start, if_neg (by simp [ho])]
  split
  · exact .inl rfl
  · rw [loadTip_of_calm hs.inStep.linked hs.inStep.increasing hs.calm]
    exact .inr ⟨_, _, _, rfl⟩

theorem submit_of_accepted {r q : Request} (hr : r.accepted = some q) (ho : a.closed = false) (s : Scene W) :
    (submit r (a, s)).2 = ({ a with
      outcomes := a.outcomes ++ [.pending]
      queue := a.queue ++ [.request a.outcomes.length q]
      started := true }, s) := by
  rw [Request.accepted] at hr
  rw [submit]
  cases hd : Canonical.toJson r.details with
  | error f => simp [hd] at hr
  | ok details =>
    rw [hd] at hr
    simp only [ho, Bool.false_eq_true, if_false, ← Option.some.inj hr]

theorem submit_of_refused {r : Request} (hr : r.accepted = none) (a : Appender) (s : Scene W) :
    (∃ f, submit r (a, s) = (.error f, a, s)) ∨ ∃ f, submit r (a, s) =
      (.ok a.outcomes.length, { a with outcomes := a.outcomes ++ [.failed f] },
        { s with watch := reportFailure f r s.watch }) := by
  rw [Request.accepted] at hr
  rw [submit]
  cases hd : Canonical.toJson r.details with
  | ok details => simp [hd] at hr
  | error f =>
    cases f with
    | encoding why =>
      dsimp only
      split
      · exact .inl ⟨_, rfl⟩
      · exact .inr ⟨_, rfl⟩
    | _ => exact .inl ⟨_, rfl⟩

end Appender

namespace Session

open Appender

/-- An open appender without outages, and what the ledger is going to be when nothing waits any more. -/
structure Foresees (l : Ledger) (s : Session Memory) : Prop where
  steady : Steady s.appender s.scene
  opened : s.appender.closed = false
  outlook : s.appender.outlook s.scene = l

variable {l : Ledger} {s : Session Memory}

theorem foresees_fresh (ids : IdSource) (clock : Clock) (watch : Watch) :
    Foresees ⟨[], clock⟩ (fresh (Memory.empty ids) clock watch) :=
  ⟨.fresh (extends_fresh ids clock watch).1 rfl, rfl, rfl⟩

/-- Whether the tip is loaded when the writer is started or with the first request, the outlook is the same. -/
private theorem foresees_start (h : Foresees l s) : Foresees l (step Memory.store Memory.strike .start s) := by
  obtain ⟨hs, ho, hl⟩ := h
  have hin := (extends_step .start ⟨hs.inStep, List.nil_prefix⟩).1
  rw [step, after] at hin ⊢
  rcases start_of_calm hs ho with he | ⟨tip, lastAt, watch, he⟩
  · rw [he]
    exact ⟨hs, ho, hl⟩
  · rw [he] at hin ⊢
    exact ⟨⟨hin, hs.calm, hs.kept, hs.countable, hs.stops, hs.stopped, fun hn => absurd hn (by simp)⟩, ho, hl⟩

theorem foresees_submit {r : Request} (hr : r.eventType.display?.isSome = true) (h : Foresees l s) :
    Foresees (l.offer r) (step Memory.store Memory.strike (.submit r) s) := by
  obtain ⟨hs, ho, hl⟩ := h
  rw [step, after, Ledger.offer]
  cases hq : r.accepted with
  | none =>
    rcases submit_of_refused hq s.appender s.scene with ⟨f, he⟩ | ⟨f, he⟩
    · rw [he]
      exact ⟨hs, ho, hl⟩
    · rw [he]
      have hkept : Outcome.cancelled ∉ s.appender.outcomes ++ [.failed f] := by simp [hs.kept]
      exact ⟨⟨hs.inStep.of_samePlace ⟨rfl, rfl, rfl⟩ rfl, hs.calm, hkept, hs.countable, hs.stops, hs.stopped,
        hs.unstarted⟩, ho, hl⟩
  | some q =>
    rw [submit_of_accepted hq ho]
    obtain ⟨hsteady, hlook⟩ := hs.queued ho (Request.eventType_of_accepted hq ▸ hr) s.appender.outcomes.length
    exact ⟨hsteady, ho, hl ▸ hlook⟩

theorem foresees_work (n : Nat) (h : Foresees l s) : Foresees l (step Memory.store Memory.strike (.work n) s) := by
  obtain ⟨hs, ho, hl⟩ := h
  obtain ⟨hsteady, hlook, hclosed, -⟩ := hs.work n
  exact ⟨hsteady, hclosed.trans ho, hlook.trans hl⟩

/-- Closing an appender finishes what waits for it, so the next one has the same outlook. -/
private theorem foresees_takeOver (timeout : Option Int) (h : Foresees l s) :
    Foresees l (run Memory.store Memory.strike [.close false timeout, .replace none] s) := by
  obtain ⟨hs, ho, hl⟩ := h
  obtain ⟨hsteady, -, hledger⟩ := hs.close ho timeout
  exact ⟨.fresh hsteady.inStep hsteady.calm, rfl, hledger.trans hl⟩

private theorem foresees_calls {calls : List Call}
    (hc : ∀ r ∈ calls.filterMap Call.request?, r.eventType.display?.isSome = true) (h : Foresees l s) :
    Foresees ((calls.filterMap Call.request?).foldl Ledger.offer l)
      (run Memory.store Memory.strike (calls.map Call.move) s) := by
  induction calls generalizing l s with
  | nil => exact h
  | cons c rest ih =>
    cases c with
    | start => exact ih hc (foresees_start h)
    | submit r =>
      have hr := List.forall_mem_cons.mp hc
      exact ih hr.2 (foresees_submit hr.1 h)
    | work n => exact ih hc (foresees_work n h)

private theorem foresees_tenure {t : Tenure}
    (hc : ∀ r ∈ t.calls.filterMap Call.request?, r.eventType.display?.isSome = true) (h : Foresees l s) :
    Foresees ((t.calls.filterMap Call.request?).foldl Ledger.offer l) (run Memory.store Memory.strike t.moves s) := by
  rw [Tenure.moves, run, List.foldl_append]
  exact foresees_takeOver t.timeout (foresees_calls hc h)

/-- The rows that appenders in relay are going to store are the ledger of all their requests. -/
theorem foresees_relay {p : Relay} (hc : ∀ r ∈ p.requests, r.eventType.display?.isSome = true) (h : Foresees l s) :
    Foresees (p.requests.foldl Ledger.offer l) (run Memory.store Memory.strike p.moves s) := by
  obtain ⟨tenures, last⟩ := p
  rw [Relay.requests] at hc ⊢
  rw [Relay.moves, run]
  induction tenures generalizing l s with
  | nil => exact foresees_calls hc h
  | cons t rest ih =>
    rw [List.flatMap_cons, List.append_assoc, List.filterMap_append] at hc ⊢
    rw [List.flatMap_cons, List.append_assoc, List.foldl_append, List.foldl_append]
    rw [List.forall_mem_append] at hc
    exact ih (foresees_tenure hc.1 h) hc.2

private theorem Foresees.rows_prefix (h : Foresees l s) : s.scene.world.entries.map Entry.draft <+: l.rows := by
  obtain ⟨-, -, rfl⟩ := h
  exact Ledger.rows_prefix_foldl s.appender.awaited (.ofScene s.scene)

theorem Foresees.rows_eq (h : Foresees l s) (hi : s.appender.IsIdle) :
    s.scene.world.entries.map Entry.draft = l.rows := by
  rw [← h.outlook, hi.outlook_eq]
  rfl

private theorem isIdle_of_closed {p : Relay} (hp : p.last = []) (ids : IdSource) (clock : Clock) (watch : Watch) :
    (inMemory ids clock watch p.moves).appender.IsIdle := by
  obtain ⟨tenures, last⟩ := p
  rw [show last = [] from hp, Relay.moves, inMemory, run]
  rcases List.eq_nil_or_concat tenures with rfl | ⟨front, t, rfl⟩
  · exact ⟨rfl, rfl⟩
  · simp only [List.concat_eq_append, List.flatMap_append, List.flatMap_singleton, List.map_nil, List.append_nil,
      List.foldl_append, Tenure.moves]
    exact ⟨rfl, rfl⟩

/-- A tip that an appender knows is what its store would answer about the last row, and so is the instant that it
knows. Without outages of the store, appenders that take over from each other at any points store the same rows, up to
the ids, for the same requests and the same clock: those of the one are always a beginning of what the other has when
it is idle, and all of it when both are. The event types of the requests are texts, or at least have a text to be
counted by; without one a failure would end the writer. -/
theorem takeover_is_invisible (ids : IdSource) (clock : Clock) (watch : Watch) :
    (∀ (moves : List (Move (List Fault))) (t : Value),
      let s := inMemory ids clock watch moves
      s.appender.tip = some t →
        ∃ last, (Memory.store.findLast (s.scene.world.strike [])).1 = .ok last ∧
          t = Chain.expectedAfter last ∧ s.appender.lastAt = last.map Entry.createdAt) ∧
    ∀ (ids' : IdSource) (watch' : Watch) (p q : Relay), p.requests = q.requests →
      (∀ r ∈ p.requests, r.eventType.display?.isSome = true) →
      let s := inMemory ids clock watch p.moves
      let s' := inMemory ids' clock watch' q.moves
      s'.appender.IsIdle →
        s.scene.world.entries.map Entry.draft <+: s'.scene.world.entries.map Entry.draft ∧
        (s.appender.IsIdle → s.scene.world.entries.map Entry.draft = s'.scene.world.entries.map Entry.draft) := by
  refine ⟨?_, ?_⟩
  · intro moves t s ht
    have h : Continues s.appender s.scene.world.entries := (extends_run moves (extends_fresh ids clock watch)).1
    obtain ⟨htip, hlast⟩ := h.tip t ht
    refine ⟨s.scene.world.entries.getLast?, ?_, htip.trans (Chain.tip_genesis _), hlast⟩
    rw [Memory.findLast_of_calm (m := s.scene.world.strike []) rfl (Chain.isAware_of_linked h.linked)
      h.increasing.isSorted]
    rfl
  · intro ids' watch' p q hpq hc s s' hi
    have hp : Foresees _ s := foresees_relay hc (foresees_fresh ids clock watch)
    have hq : Foresees _ s' := foresees_relay (hpq ▸ hc) (foresees_fresh ids' clock watch')
    rw [hpq] at hp
    exact ⟨(hq.rows_eq hi).symm ▸ hp.rows_prefix, fun hs => (hp.rows_eq hs).trans (hq.rows_eq hi).symm⟩

/-- Two requests while the clock stands still: it makes no difference for the rows whether one appender is asked for
both, or one is closed after the first request and another one comes. -/
theorem takeover_is_invisible_between_two :
    let t : Instant := ⟨63900000000000000, some 0, by decide⟩
    let r : Request := ⟨.text (lit "login|ok"), .text (lit "auth"), .map [(.text (lit "n"), .int 1)], .null⟩
    let u : Request := ⟨.text (lit "logout"), .text (lit "auth"), .map [], .null⟩
    let clock : Clock := .scripted (.ok t) []
    let p : Relay := ⟨[], [.submit r, .submit u, .work 4]⟩
    let q : Relay := ⟨[⟨[.start, .submit r], some 5000⟩, ⟨[.submit u], none⟩], []⟩
    let s := inMemory (.ofNumbers []) clock default p.moves
    let s' := inMemory (.ofNumbers [7]) clock default q.moves
    (∃ e, (Memory.store.findLast (s.scene.world.strike [])).1 = .ok (some e) ∧
      s.appender.tip = some e.currentHash ∧ s.appender.lastAt = some e.createdAt) ∧
      s.scene.world.entries.length = 2 ∧
      s.scene.world.entries.map Entry.draft = s'.scene.world.entries.map Entry.draft := by
  intro t r u clock p q s s'
  obtain ⟨hanswer, hrelay⟩ := takeover_is_invisible (.ofNumbers []) clock default
  have hd : s.appender.tip.isSome = true ∧ s.appender.lastAt.isSome = true ∧ s.appender.toil = 0 ∧
      s.scene.world.entries.length = 2 := by
    decide +kernel
  obtain ⟨htip, hat, htoil, hlen⟩ := hd
  obtain ⟨x, hx⟩ := Option.isSome_iff_exists.mp htip
  obtain ⟨last, hfound, he, hlast⟩ := hanswer p.moves x hx
  have hrows := (hrelay (.ofNumbers [7]) default p q rfl (by decide) (isIdle_of_closed rfl _ _ _)).2 (.of_toil htoil)
  cases last with
  | none => exact absurd hat (by rw [show s.appender.lastAt = none from hlast]; decide)
  | some e => exact ⟨⟨e, hfound, hx.trans (congrArg some he), hlast⟩, hlen, hrows⟩

end Session

end AuditTrail
