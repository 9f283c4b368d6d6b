import AuditTrail.Proofs.Appender.MemoryChain
import AuditTrail.Proofs.Canonical.Copying

/-!
# What waiting requests come to

Without outages the rows that a writer is going to store are determined by the requests that wait for it, the rows
before them and the clock: they are what a ledger holds when the requests are added to it one by one. Whether a
request waits in the queue, is at the writer or is stored, the ledger to come is the same (`Steady.work`).
-/

namespace AuditTrail

/-- The rows of a chain without their ids, and the clock that times the next one. -/
structure Ledger where
  rows : List Draft
  clock : Clock

namespace Ledger

def tip (l : Ledger) : Value :=
  match l.rows.getLast? with
  | some d => d.currentHash
  | none => .text genesisHash

def lastAt (l : Ledger) : Option Instant := l.rows.getLast?.map Draft.createdAt

/-- The ledger after a request: with a row more, if the request can be linked to the last one. -/
def add (l : Ledger) (r : Request) : Ledger :=
  match l.clock.now.1 >>= Appender.link ⟨0, r, l.tip, false⟩ l.lastAt with
  | .ok linked => ⟨l.rows ++ [linked.2], l.clock.now.2⟩
  | .error _ => ⟨l.rows, l.clock.now.2⟩

private theorem rows_prefix_add (l : Ledger) (r : Request) : l.rows <+: (l.add r).rows := by
  rw [add]
  split
  · exact List.prefix_append _ _
  · exact List.prefix_rfl

theorem rows_prefix_foldl (rs : List Request) (l : Ledger) : l.rows <+: (rs.foldl add l).rows := by
  induction rs generalizing l with
  | nil => exact List.prefix_rfl
  | cons r rest ih => exact (rows_prefix_add l r).trans (ih (l.add r))

def ofScene (s : Scene Memory) : Ledger := ⟨s.world.entries.map Entry.draft, s.clock⟩

theorem tip_ofScene (s : Scene Memory) : (ofScene s).tip = Chain.tip (.text genesisHash) s.world.entries := by
  rw [Chain.tip_genesis, tip, ofScene, List.getLast?_map]
  cases s.world.entries.getLast? <;> rfl

theorem lastAt_ofScene (s : Scene Memory) : (ofScene s).lastAt = s.world.entries.getLast?.map Entry.createdAt := by
  rw [lastAt, ofScene, List.getLast?_map, Option.map_map]
  rfl

end Ledger

def Item.request? : Item → Option Request
  | .request _ r => some r
  | .stop => none

namespace Memory

theorem findLast_of_calm {m : Memory} (hf : m.failures = []) (ha : ∀ e ∈ m.entries, e.createdAt.isAware = true)
    (hs : Ordered.IsSorted m.entries) : store.findLast m = (.ok m.entries.getLast?, m) := by
  simp only [store, reading, hf, Ordered.sort_of_isSorted ha hs]

private theorem create_of_calm {m : Memory} {d : Draft} (hf : m.failures = []) (hc : d.details.isCopyable = true) :
    ∃ id w, store.create d m = (.ok (d.withId id), w) ∧ w.entries = m.entries ++ [d.withId id] ∧ w.failures = [] := by
  simp only [store, create, hf, hc, if_true]
  exact ⟨_, _, rfl, rfl, rfl⟩

end Memory

namespace Appender

/-- The requests at the writer and in the queue, in the order in which they are going to be committed. -/
def awaited (a : Appender) : List Request :=
  (a.admitted.map Admitted.request).toList ++ a.queue.filterMap Item.request?

/-- As many steps as the writer may need until nothing waits for it. -/
def toil (a : Appender) : Nat := 2 * a.queue.length + a.admitted.toList.length

/-- What the ledger is going to be when nothing waits any more. -/
def outlook (a : Appender) (s : Scene Memory) : Ledger := a.awaited.foldl Ledger.add (.ofScene s)

def IsIdle (a : Appender) : Prop := a.queue = [] ∧ a.admitted = none

theorem IsIdle.of_toil {a : Appender} (h : a.toil = 0) : a.IsIdle := by
  rw [toil, Nat.add_eq_zero_iff] at h
  refine ⟨List.eq_nil_of_length_eq_zero (by omega), ?_⟩
  rw [← Option.toList_eq_nil_iff]
  exact List.eq_nil_of_length_eq_zero h.2

theorem IsIdle.outlook_eq {a : Appender} (h : a.IsIdle) (s : Scene Memory) : outlook a s = .ofScene s := by
  rw [outlook, awaited, h.1, h.2]
  rfl

theorem link_congr {p q : Admitted} (hp : p.previousHash = q.previousHash) (hr : p.request = q.request)
    (last : Option Instant) (reading : Instant) : link p last reading = link q last reading := by
  simp only [link, draftOf, hr, hp]

theorem loadTip_of_calm {s : Scene Memory} (hl : Chain.Linked (.text genesisHash) s.world.entries)
    (hi : Chain.IsIncreasing s.world.entries) (hf : s.world.failures = []) (a : Appender) :
    loadTip Memory.store (a, s) = (.ok (Chain.tip (.text genesisHash) s.world.entries),
      { a with
        tip := some (Chain.tip (.text genesisHash) s.world.entries)
        lastAt := s.world.entries.getLast?.map Entry.createdAt }, s) := by
  rw [loadTip, Memory.findLast_of_calm hf (Chain.isAware_of_linked hl) hi.isSorted, Chain.tip_genesis]
  cases hlast : s.world.entries.getLast? with
  | none => rfl
  | some e =>
    obtain ⟨hash, -, hc⟩ := Chain.isSealed_of_mem hl (List.mem_of_getLast? hlast)
    simp only [Chain.expectedAfter, hc]
    rfl

/-- An appender whose store suffers no outage: no request is withdrawn or too odd to be counted, a stop mark comes
only last and when the appender is closed, and a stopped writer or one that never started has nothing to do. -/
structure Steady (a : Appender) (s : Scene Memory) : Prop where
  inStep : InStep a s
  calm : s.world.failures = []
  kept : .cancelled ∉ a.outcomes
  countable : ∀ r ∈ a.awaited, r.eventType.display?.isSome = true
  stops : ∀ front rest, a.queue = front ++ .stop :: rest → a.closed = true ∧ rest = []
  stopped : a.stopped = true → a.closed = true ∧ a.IsIdle
  unstarted : a.started = false → a.IsIdle

/-- What a step of the writer does: it comes closer to its end, and the outlook stays. -/
structure Advances (a : Appender) (s : Scene Memory) (b : Appender) (t : Scene Memory) : Prop where
  steady : Steady b t
  outlook : b.outlook t = a.outlook s
  toil : b.toil < a.toil
  closed : b.closed = a.closed

namespace Steady

variable {a : Appender} {s : Scene Memory}

private theorem not_uncountable (h : Steady a s) {p : Admitted} (hp : a.admitted = some p) (w : Watch) :
    isUncountable p.request w = false := by
  have hr : p.request ∈ a.awaited := by
    rw [awaited, hp]
    exact List.mem_cons_self
  have hd := h.countable _ hr
  rw [isUncountable, Bool.and_eq_false_iff]
  right
  rw [← Bool.not_eq_true, Option.isNone_iff_eq_none]
  exact fun hn => by simp [hn] at hd

theorem takeNext_request (h : Steady a s) {ticket : Nat} {r : Request} {rest : List Item}
    (hq : a.queue = .request ticket r :: rest) :
    ∃ tip lastAt, takeNext Memory.store a s = ({ a with
      queue := rest
      outcomes := a.outcomes.set ticket .running
      tip := tip
      lastAt := lastAt
      admitted := some ⟨ticket, r, Chain.tip (.text genesisHash) s.world.entries, s.watch.metrics.running⟩ }, s) := by
  rw [takeNext, hq]
  dsimp only
  split
  · rename_i hc
    exact absurd (List.mem_of_getElem? hc) h.kept
  · cases ht : a.tip with
    | some t =>
      simp only [settleTicket, (h.inStep.tip t ht).1]
      exact ⟨_, _, rfl⟩
    | none =>
      simp only [settleTicket, loadTip_of_calm h.inStep.linked h.inStep.increasing h.calm]
      exact ⟨_, _, rfl⟩

private theorem takeNext (h : Steady a s) (ha : a.admitted = none) (hs : a.stopped = false) (hne : a.queue ≠ []) :
    Advances a s (Appender.takeNext Memory.store a s).1 (Appender.takeNext Memory.store a s).2 := by
  have hin := (inStep_takeNext h.inStep).1
  have hstarted : a.started = true := by
    rw [← Bool.not_eq_false]
    exact fun hn => hne (h.unstarted hn).1
  cases hq : a.queue with
  | nil => exact absurd hq hne
  | cons item rest =>
    have hstops : ∀ front more, rest = front ++ .stop :: more → a.closed = true ∧ more = [] := fun front more he =>
      h.stops (item :: front) more (by rw [hq, he, List.cons_append])
    cases item with
    | stop =>
      have hlast := h.stops [] rest hq
      have he : Appender.takeNext Memory.store a s = ({ a with queue := rest, stopped := true }, s) := by
        rw [Appender.takeNext, hq]
      rw [he] at hin ⊢
      refine ⟨⟨hin, h.calm, h.kept, ?_, hstops, fun _ => ⟨hlast.1, hlast.2, ha⟩, fun _ => ⟨hlast.2, ha⟩⟩, ?_, ?_, rfl⟩
      · intro r hr
        refine h.countable r ?_
        rw [awaited, hq]
        exact hr
      · rw [outlook, outlook, awaited, awaited, hq]
        rfl
      · simp only [toil, hq, List.length_cons]
        omega
    | request ticket r =>
      have hawaited : a.awaited = r :: rest.filterMap Item.request? := by
        rw [awaited, ha, hq]
        rfl
      obtain ⟨tip, lastAt, he⟩ := h.takeNext_request hq
      rw [he] at hin ⊢
      refine ⟨⟨hin, h.calm, ?_, ?_, hstops, fun hn => ?_, fun hn => ?_⟩, ?_, ?_, rfl⟩
      · intro hm
        rcases List.mem_or_eq_of_mem_set hm with hm | hm
        · exact h.kept hm
        · exact absurd hm (by simp)
      · have hc := h.countable
        rw [hawaited] at hc
        exact hc
      · exact absurd (hs.symm.trans hn) (by decide)
      · exact absurd (hstarted.symm.trans hn) (by decide)
      · rw [outlook, outlook, hawaited]
        rfl
      · simp only [toil, hq, ha, List.length_cons, Option.toList_some, Option.toList_none, List.length_nil]
        omega

private theorem link_eq (h : Steady a s) {p : Admitted} (hp : a.admitted = some p) (reading : Instant) :
    link ⟨0, p.request, (Ledger.ofScene s).tip, false⟩ (Ledger.ofScene s).lastAt reading = link p a.lastAt reading := by
  obtain ⟨htip, hlast⟩ := h.inStep.tip _ (h.inStep.admitted p hp)
  rw [Ledger.lastAt_ofScene, ← hlast]
  have hhash : (⟨0, p.request, (Ledger.ofScene s).tip, false⟩ : Admitted).previousHash = p.previousHash :=
    (Ledger.tip_ofScene s).trans htip.symm
  exact link_congr hhash rfl _ _

/-- A commit stores what the ledger has after the request. -/
private theorem commit_cases (h : Steady a s) {p : Admitted} (hp : a.admitted = some p) :
    ∃ o tip lastAt t, Appender.commit Memory.store p a s = ({ a with
        admitted := none
        tip := tip
        lastAt := lastAt
        outcomes := a.outcomes.set p.ticket o }, t) ∧
      o ≠ .cancelled ∧ t.world.failures = [] ∧ Ledger.ofScene t = (Ledger.ofScene s).add p.request := by
  have hlink : (s.clock.now.1 >>= link ⟨0, p.request, (Ledger.ofScene s).tip, false⟩ (Ledger.ofScene s).lastAt) =
      s.clock.now.1 >>= link p a.lastAt := by
    cases s.clock.now.1 with
    | error f => rfl
    | ok reading => exact h.link_eq hp reading
  rw [Appender.commit, Ledger.add]
  rw [show (Ledger.ofScene s).clock = s.clock from rfl, hlink]
  dsimp only
  cases hl : s.clock.now.1 >>= link p a.lastAt with
  | error f =>
    simp only [failAdmitted, h.not_uncountable hp, Bool.false_eq_true, if_false, settleTicket]
    exact ⟨.failed f, _, _, _, rfl, by simp, h.calm, rfl⟩
  | ok linked =>
    obtain ⟨hash, d⟩ := linked
    obtain ⟨reading, -, hlinked⟩ := Fault.bind_eq_ok_iff.mp hl
    obtain ⟨hd, -, hhash⟩ := link_eq_ok hlinked
    have hcopy : d.details.isCopyable = true := by
      obtain ⟨body, hb⟩ := Entry.exists_body_of_recomputed (e := d.withId .null) hhash
      exact Canonical.isCopyable_of_encode _ body hb
    obtain ⟨id, w, hc, hrows, hcalm⟩ := Memory.create_of_calm h.calm hcopy
    simp only [hc, storeAdmitted, settleTicket]
    refine ⟨.stored (d.withId id), _, _, _, rfl, by simp, hcalm, ?_⟩
    rw [Ledger.ofScene, hrows, List.map_append]
    rfl

private theorem commit (h : Steady a s) {p : Admitted} (hp : a.admitted = some p) :
    Advances a s (Appender.commit Memory.store p a s).1 (Appender.commit Memory.store p a s).2 := by
  have hin := (inStep_commit hp h.inStep).1
  obtain ⟨o, tip, lastAt, t, he, ho, hcalm, hadd⟩ := h.commit_cases hp
  have hawaited : a.awaited = p.request :: a.queue.filterMap Item.request? := by
    rw [awaited, hp]
    rfl
  rw [he] at hin ⊢
  refine ⟨⟨hin, hcalm, ?_, ?_, h.stops, fun hn => ?_, fun hn => ?_⟩, ?_, ?_, rfl⟩
  · intro hm
    rcases List.mem_or_eq_of_mem_set hm with hm | hm
    · exact h.kept hm
    · exact ho hm.symm
  · intro r hr
    refine h.countable r ?_
    rw [hawaited]
    exact List.mem_cons_of_mem _ hr
  · exact ⟨(h.stopped hn).1, (h.stopped hn).2.1, rfl⟩
  · exact ⟨(h.unstarted hn).1, rfl⟩
  · rw [outlook, outlook, hawaited, List.foldl_cons, ← hadd]
    rfl
  · simp only [toil, hp, Option.toList_some, Option.toList_none, List.length_nil, List.length_singleton]
    omega

theorem fresh (h : InStep a s) (hf : s.world.failures = []) : Steady .fresh s where
  inStep := h.takeOver
  calm := hf
  kept := List.not_mem_nil
  countable _ hr := absurd hr List.not_mem_nil
  stops front rest hq := absurd hq (by simp [Appender.fresh])
  stopped hs := absurd hs (by simp [Appender.fresh])
  unstarted _ := ⟨rfl, rfl⟩

/-- The steps of the writer keep the outlook, and enough of them leave nothing waiting. -/
theorem work (n : Nat) (h : Steady a s) :
    let out := Appender.work Memory.store false n a s
    Steady out.1 out.2 ∧ out.1.outlook out.2 = a.outlook s ∧ out.1.closed = a.closed ∧
      (a.toil ≤ n → out.1.toil = 0) := by
  induction n generalizing a s with
  | zero => exact ⟨h, rfl, rfl, Nat.eq_zero_of_le_zero⟩
  | succ n ih =>
    have hgo : ∀ {b : Appender} {t : Scene Memory}, Advances a s b t →
        let out := Appender.work Memory.store false n b t
        Steady out.1 out.2 ∧ out.1.outlook out.2 = a.outlook s ∧ out.1.closed = a.closed ∧
          (a.toil ≤ n + 1 → out.1.toil = 0) := by
      intro b t hb
      obtain ⟨hsteady, hlook, hclosed, hidle⟩ := ih hb.steady
      have hless := hb.toil
      exact ⟨hsteady, hlook.trans hb.outlook, hclosed.trans hb.closed, fun hn => hidle (by omega)⟩
    rw [Appender.work]
    cases ha : a.admitted with
    | some p => exact hgo (h.commit ha)
    | none =>
      by_cases hq : (a.stopped || a.queue.isEmpty) = true
      · have hempty : a.queue = [] := by
          rcases Bool.or_eq_true_iff.mp hq with hs | he
          · exact (h.stopped hs).2.1
          · exact List.isEmpty_iff.mp he
        simp only [hq, if_true]
        exact ⟨h, trivial, trivial, fun _ => by rw [toil, hempty, ha]; rfl⟩
      · rw [Bool.or_eq_true, not_or, Bool.not_eq_true, List.isEmpty_iff] at hq
        simp only [hq.1, List.isEmpty_iff, hq.2, Bool.false_or, if_false]
        exact hgo (h.takeNext ha hq.1 hq.2)

private theorem stop_notMem (h : Steady a s) (ho : a.closed = false) : .stop ∉ a.queue := by
  intro hm
  obtain ⟨front, rest, hq⟩ := List.append_of_mem hm
  exact absurd (ho.symm.trans (h.stops front rest hq).1) (by decide)

theorem queued (h : Steady a s) (ho : a.closed = false) {r : Request} (hr : r.eventType.display?.isSome = true)
    (ticket : Nat) :
    let b : Appender := { a with
      outcomes := a.outcomes ++ [.pending]
      queue := a.queue ++ [.request ticket r]
      started := true }
    Steady b s ∧ b.outlook s = (a.outlook s).add r := by
  intro b
  have hwait : b.awaited = a.awaited ++ [r] := by
    rw [awaited, awaited, List.filterMap_append, List.append_assoc]
    rfl
  refine ⟨⟨h.inStep.of_samePlace ⟨rfl, rfl, rfl⟩ rfl, h.calm, by simp [b, h.kept], ?_, ?_, ?_, ?_⟩, ?_⟩
  · rw [hwait, List.forall_mem_append, List.forall_mem_singleton]
    exact ⟨h.countable, hr⟩
  · intro front rest hq
    have hm : Item.stop ∈ a.queue ++ [.request ticket r] :=
      (show a.queue ++ [.request ticket r] = _ from hq) ▸ List.mem_append_right front List.mem_cons_self
    exact absurd hm (by simp [h.stop_notMem ho])
  · exact fun hs => absurd (ho.symm.trans (h.stopped hs).1) (by decide)
  · exact fun hn => absurd hn (by simp [b])
  · rw [outlook, hwait, List.foldl_append]
    rfl

private theorem stop (h : Steady a s) (ho : a.closed = false) (hst : a.started = true) :
    Steady { a with closed := true, queue := a.queue ++ [.stop] } s where
  inStep := h.inStep.of_samePlace ⟨rfl, rfl, rfl⟩ rfl
  calm := h.calm
  kept := h.kept
  countable r hr := h.countable r (by simpa [awaited, Item.request?] using hr)
  stops front rest hq := by
    refine ⟨rfl, ?_⟩
    rcases List.eq_nil_or_concat rest with rfl | ⟨more, x, rfl⟩
    · rfl
    · rw [List.concat_eq_append, ← List.cons_append, ← List.append_assoc] at hq
      have hm : Item.stop ∈ a.queue :=
        List.append_inj_left' hq rfl ▸ List.mem_append_right front List.mem_cons_self
      exact absurd hm (h.stop_notMem ho)
  stopped hs := absurd (ho.symm.trans (h.stopped hs).1) (by decide)
  unstarted hn := absurd (hst.symm.trans hn) (by decide)

/-- Closing an open appender leaves nothing waiting, and the rows are what they were going to be. -/
theorem close (h : Steady a s) (ho : a.closed = false) (timeout : Option Int) :
    let out := Appender.close Memory.store false timeout (a, s)
    Steady out.2.1 out.2.2 ∧ out.2.1.IsIdle ∧ Ledger.ofScene out.2.2 = a.outlook s := by
  cases hst : a.started with
  | false =>
    have hidle := h.unstarted hst
    rw [close_of_unstarted ho hst]
    refine ⟨⟨h.inStep.of_samePlace ⟨rfl, rfl, rfl⟩ rfl, h.calm, h.kept, h.countable, ?_, ?_, ?_⟩, hidle, ?_⟩
    · exact fun front rest hq => ⟨rfl, (h.stops front rest hq).2⟩
    · exact fun _ => ⟨rfl, hidle⟩
    · exact fun _ => hidle
    · exact (hidle.outlook_eq s).symm
  | true =>
    have hlook : outlook { a with closed := true, queue := a.queue ++ [.stop] } s = a.outlook s := by
      simp only [outlook, awaited, List.filterMap_append, List.filterMap_cons, List.filterMap_nil, Item.request?,
        List.append_nil]
    have htoil : toil { a with closed := true, queue := a.queue ++ [.stop] } ≤
        2 * (a.queue ++ [Item.stop]).length + 1 := by
      have hone : a.admitted.toList.length ≤ 1 := by cases a.admitted <;> simp
      exact Nat.add_le_add_left hone _
    obtain ⟨hsteady, hkeep, -, hdone⟩ := (h.stop ho hst).work (2 * (a.queue ++ [Item.stop]).length + 1)
    have hidle := IsIdle.of_toil (hdone htoil)
    obtain ⟨r, watch, hclose⟩ := close_of_started Memory.store false timeout s ho hst
    rw [hclose]
    refine ⟨⟨hsteady.inStep, hsteady.calm, hsteady.kept, hsteady.countable, hsteady.stops, hsteady.stopped,
      hsteady.unstarted⟩, hidle, ?_⟩
    exact (hidle.outlook_eq _).symm.trans (hkeep.trans hlook)

end Steady

end Appender

end AuditTrail
