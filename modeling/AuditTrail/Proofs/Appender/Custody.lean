import AuditTrail.Proofs.Appender.Crew

/-!
# Custody of the requests

At a desk in order the tickets and the journal are in order, the writer holds one request at most, and nothing waits for
a writer that was not started or has stopped (`Desk.Sound`). Whatever happens at a desk keeps it in order. What the
writer makes of a request in its hand, and of one that it has admitted, is said once (`Desk.Looked`, `Desk.Committed`).
-/

namespace AuditTrail

open Appender

namespace Desk

variable {W : Type} {store : Store W} {Q : Request → Prop} {d : Desk W}

/-- A request whose details have no canonical text gets no ticket, or a new one that has failed and was reported. -/
theorem refuse_cases {r : Request} (hr : r.accepted = none) (d : Desk W) :
    (∃ f, d.refuse r = (.error f, d)) ∨ ∃ f, d.refuse r = (.ok d.appender.outcomes.length, { d with
      appender := { d.appender with outcomes := d.appender.outcomes ++ [.failed f] }
      scene := { d.scene with watch := reportFailure f r d.scene.watch } }) := by
  rw [refuse]
  rcases submit_of_refused hr d.appender d.scene with ⟨f, he⟩ | ⟨f, he⟩
  · rw [he]
    exact .inl ⟨f, rfl⟩
  · rw [he]
    exact .inr ⟨f, rfl⟩

/-- Launching does nothing if the appender is closed or was started. Else it starts the writer and asks the store for the
tip, which stays as it was if there is no answer. -/
inductive Launched (store : Store W) (d : Desk W) : Desk W → Prop
  | nothing : Launched store d d
  | unanswered {s : Scene W} (hs : d.appender.started = false) (hw : (store.findLast d.scene.world).2 = s.world)
      (hv : ∃ line, s.watch = d.scene.watch.add line) :
      Launched store d { d with
        appender := { d.appender with started := true }
        scene := s
        journal := d.journal ++ [.hired] }
  | answered {last : Option Entry} {lastAt : Option Instant} {s : Scene W} (hs : d.appender.started = false)
      (hf : store.findLast d.scene.world = (.ok last, s.world)) (hv : ∃ line, s.watch = d.scene.watch.add line) :
      Launched store d { d with
        appender := { d.appender with tip := (Chain.expectedAfter last).nonNull?, lastAt := lastAt, started := true }
        scene := s
        journal := d.journal ++ [.hired] }

theorem launched_launch (store : Store W) (d : Desk W) : Launched store d (d.launch store).2 := by
  rw [launch, start]
  dsimp only
  by_cases hclosed : d.appender.closed = true
  · rw [if_pos hclosed, hclosed, Bool.true_or, if_pos rfl, List.append_nil]
    exact .nothing
  by_cases hstarted : d.appender.started = true
  · rw [if_neg hclosed, if_pos hstarted, hstarted, Bool.or_true, if_pos rfl, List.append_nil]
    exact .nothing
  rw [if_neg hclosed, if_neg hstarted, if_neg (by simp [hclosed, hstarted])]
  rw [Bool.not_eq_true] at hstarted
  rcases loadTip_cases store d.appender d.scene with ⟨f, w, hf, hl⟩ | ⟨last, w, hf, hl⟩
  · rw [hl]
    exact .unanswered hstarted (congrArg Prod.snd hf) ⟨_, rfl⟩
  · rw [hl]
    exact .answered hstarted hf ⟨_, rfl⟩

/-- The tickets of a desk are in order, and so is its journal. Nothing waits for a writer that was not started or has
stopped, the writer holds one request at most, and nothing waits behind the stop mark of a closed appender. -/
structure Sound (Q : Request → Prop) (d : Desk W) : Prop where
  tidy : Tidy Q d.whole
  record : d.journal.Record d.appender.outcomes d.appender.queued (d.hand.map Prod.fst)
    (d.appender.admitted.map Admitted.ticket)
  doors : d.journal.Doors d.appender.closed d.appender.started
  busy : d.hand.isSome = true → d.appender.admitted = none
  resting : d.appender.started = false ∨ d.appender.stopped = true →
    d.appender.queue = [] ∧ d.hand = none ∧ d.appender.admitted = none
  stopped : d.appender.stopped = true → d.appender.closed = true
  marked : ∀ front back, d.appender.queue = front ++ .stop :: back → back = [] ∧ d.appender.closed = true

private theorem whole_of_some {n : Nat} {r : Request} (h : d.hand = some (n, r)) :
    d.whole = { d.appender with queue := .request n r :: d.appender.queue } := by
  rw [whole, held, h]
  rfl

namespace Sound

private theorem of_free (h : Sound Q d) (hf : d.IsFree) :
    Tidy Q d.appender ∧ d.journal.Record d.appender.outcomes d.appender.queued none none := by
  have htidy := h.tidy
  have hrecord := h.record
  rw [whole_of_hand hf.hand] at htidy
  rw [hf.hand, hf.admitted] at hrecord
  exact ⟨htidy, hrecord⟩

theorem of_hand (h : Sound Q d) {n : Nat} {r : Request} (hh : d.hand = some (n, r)) :
    d.appender.admitted = none ∧ Tally d.appender.outcomes (n :: d.appender.queued) none ∧
      (∀ q ∈ r :: d.appender.queue.filterMap Item.request?, Q q) ∧
      d.journal.Record d.appender.outcomes d.appender.queued (some n) none := by
  have hadmitted : d.appender.admitted = none := h.busy (by rw [hh]; rfl)
  obtain ⟨tally, requests⟩ := h.tidy
  have record := h.record
  rw [whole_of_some hh] at tally requests
  rw [awaited] at requests
  rw [hadmitted] at tally requests record
  rw [hh] at record
  exact ⟨hadmitted, tally, requests, record⟩

theorem of_admitted (h : Sound Q d) {p : Admitted} (hp : d.appender.admitted = some p) :
    d.hand = none ∧ Tally d.appender.outcomes d.appender.queued (some p.ticket) ∧
      (∀ q ∈ d.appender.queue.filterMap Item.request?, Q q) ∧
      d.journal.Record d.appender.outcomes d.appender.queued none (some p.ticket) := by
  have hhand : d.hand = none := by
    rw [← Option.not_isSome_iff_eq_none]
    exact fun hs => absurd ((h.busy hs).symm.trans hp) (by simp)
  obtain ⟨tally, requests⟩ := h.tidy
  have record := h.record
  rw [whole_of_hand hhand] at tally requests
  rw [hp] at tally record
  rw [hhand] at record
  exact ⟨hhand, tally, fun q hq => requests q (List.mem_append_right _ hq), record⟩

end Sound

private theorem verdict_of_set {n : Nat} {a : Appender} {outcomes : List Outcome} {o : Outcome}
    (hn : n < outcomes.length) (ha : a.outcomes = outcomes.set n o) : verdict n a = [.ended n o] := by
  rw [verdict, ha, List.getElem?_set_self hn]
  rfl

private theorem admission_of_cancelled {n : Nat} {a b : Appender} (hc : a.outcomes[n]? = some .cancelled)
    (hb : b.outcomes = a.outcomes) : admission n a b = [.ended n .cancelled] := by
  rw [admission, hc]
  dsimp only
  rw [verdict, hb, hc]
  rfl

private theorem admission_of_running {n : Nat} {a b : Appender} (hc : a.outcomes[n]? ≠ some .cancelled) :
    admission n a b = .running n :: if b.admitted.isSome then [] else verdict n b := by
  rw [admission]
  split
  · exact absurd ‹_› hc
  · rfl

/-- What the writer makes of the request in its hand. It drops it if it was withdrawn. Else the request runs behind the
tip, which the store is asked for if it is not known, and fails if there is no answer. -/
inductive Looked (store : Store W) (d : Desk W) (n : Nat) (r : Request) : Desk W → Prop
  | dropped (hc : d.appender.outcomes[n]? = some .cancelled) :
      Looked store d n r ⟨{ d.appender with admitted := none }, d.scene, none, d.journal ++ [.ended n .cancelled]⟩
  | known {p : Admitted} (hn : p.ticket = n) (hr : p.request = r) (ht : d.appender.tip = some p.previousHash)
      (hc : d.appender.outcomes[n]? ≠ some .cancelled) :
      Looked store d n r ⟨{ d.appender with
        outcomes := d.appender.outcomes.set n .running
        admitted := some p }, d.scene, none, d.journal ++ [.running n]⟩
  | answered {p : Admitted} {last : Option Entry} {lastAt : Option Instant} {s : Scene W} (hn : p.ticket = n)
      (hr : p.request = r) (ht : d.appender.tip = none) (hf : store.findLast d.scene.world = (.ok last, s.world))
      (hp : p.previousHash = Chain.expectedAfter last) (hc : d.appender.outcomes[n]? ≠ some .cancelled)
      (hv : s.watch = d.scene.watch) :
      Looked store d n r ⟨{ d.appender with
        outcomes := d.appender.outcomes.set n .running
        tip := (Chain.expectedAfter last).nonNull?
        lastAt := lastAt
        admitted := some p }, s, none, d.journal ++ [.running n]⟩
  | unanswered {f : Fault} {s : Scene W} (hw : (store.findLast d.scene.world).2 = s.world)
      (hc : d.appender.outcomes[n]? ≠ some .cancelled)
      (hv : ∃ timed, s.watch = (reportFailure f r d.scene.watch).count (·.countAppendDuration timed)) :
      Looked store d n r ⟨{ d.appender with
        outcomes := d.appender.outcomes.set n (.failed f)
        admitted := none }, s, none, d.journal ++ [.running n] ++ [.ended n (.failed f)]⟩

/-- What the writer makes of the request that it has admitted: it fails, which changes the store at most by a creation
that failed, or its linked draft is created and the tip advances to it. -/
inductive Committed (store : Store W) (d : Desk W) (p : Admitted) : Desk W → Prop
  | failed {f : Fault} {s : Scene W}
      (hw : s.world = d.scene.world ∨ ∃ dr g, store.create dr d.scene.world = (.error g, s.world))
      (hv : ∃ timed, s.watch = (reportFailure f p.request d.scene.watch).count (·.countAppendDuration timed)) :
      Committed store d p ⟨{ d.appender with
        outcomes := d.appender.outcomes.set p.ticket (.failed f)
        admitted := none }, s, none, d.journal ++ [.ended p.ticket (.failed f)]⟩
  | stored {reading : Instant} {hash : Text} {dr : Draft} {e : Entry} {s : Scene W}
      (hl : link p d.appender.lastAt reading = .ok (hash, dr))
      (hc : store.create dr d.scene.world = (.ok e, s.world)) (hv : s.watch = reportStored e p d.scene.watch) :
      Committed store d p ⟨{ d.appender with
        outcomes := d.appender.outcomes.set p.ticket (.stored e)
        admitted := none
        tip := some (.text hash)
        lastAt := some dr.createdAt }, s, none, d.journal ++ [.ended p.ticket (.stored e)]⟩

section Writer

variable (hQ : ∀ r, Q r → r.eventType.display?.isSome = true) (h : Sound Q d)
include hQ h

private theorem unanswered_takeNext {n : Nat} {r : Request} (hh : d.hand = some (n, r))
    (hc : d.appender.outcomes[n]? ≠ some .cancelled) {f : Fault} {w : W}
    (hf : store.findLast d.scene.world = (.error f, w)) {timed : Bool}
    (he : takeNext store d.whole d.scene =
      failAdmitted f ⟨n, r, .null, timed⟩ (d.whole.holding n d.appender.queue) { d.scene with world := w }) :
    Looked store d n r (d.look store) := by
  obtain ⟨-, tally, requests, -⟩ := h.of_hand hh
  have ha : (takeNext store d.whole d.scene).1 =
      { d.appender with outcomes := d.appender.outcomes.set n (.failed f), admitted := none } := by
    rw [he, ← List.set_set (a := .running)]
    exact failAdmitted_eq hQ (p := ⟨n, r, .null, timed⟩) (requests r List.mem_cons_self) f _ _
  have hworld : (store.findLast d.scene.world).2 = (takeNext store d.whole d.scene).2.world := by
    rw [he, (samePlace_failAdmitted f _ _ _).2, hf]
  have hwatch : (takeNext store d.whole d.scene).2.watch =
      (reportFailure f r d.scene.watch).count (·.countAppendDuration timed) := by
    rw [he]
    exact watch_failAdmitted_of_countable (p := ⟨n, r, .null, timed⟩) (s := { d.scene with world := w })
      (isUncountable_eq_false hQ (requests r List.mem_cons_self) d.scene.watch) f _
  rw [look, hh]
  dsimp only
  rw [admission_of_running hc, verdict_of_set (tally.lt_length List.mem_cons_self) (congrArg Appender.outcomes ha), ha,
    List.append_cons]
  exact .unanswered hworld hc ⟨timed, hwatch⟩

theorem looked_look (store : Store W) {n : Nat} {r : Request} (hh : d.hand = some (n, r)) :
    Looked store d n r (d.look store) := by
  have hq : d.whole.queue = .request n r :: d.appender.queue := by rw [whole_of_some hh]
  by_cases hc : d.appender.outcomes[n]? = some .cancelled
  · have hnext : takeNext store d.whole d.scene = ({ d.appender with admitted := none }, d.scene) := by
      rw [takeNext_cancelled hq hc, ← (h.of_hand hh).1]
      rfl
    rw [look, hh]
    dsimp only
    rw [hnext, admission_of_cancelled (b := { d.appender with admitted := none }) hc rfl]
    exact .dropped hc
  rcases Option.eq_none_or_eq_some d.appender.tip with ht | ⟨t, ht⟩
  · rcases takeNext_of_no_tip hq hc ht d.scene with ⟨f, w, hf, he⟩ | ⟨last, w, hf, he⟩
    · exact unanswered_takeNext hQ h hh hc hf he
    · rw [look, hh]
      dsimp only
      rw [he, admission_of_running hc]
      exact .answered rfl rfl ht hf rfl hc rfl
  · rw [look, hh]
    dsimp only
    rw [takeNext_of_tip hq hc ht, admission_of_running hc]
    exact .known rfl rfl ht hc

theorem committed_commit (store : Store W) {p : Admitted} (hp : d.appender.admitted = some p) :
    Committed store d p (d.commit store) := by
  obtain ⟨hhand, tally, -, -⟩ := h.of_admitted hp
  have hlt : p.ticket < d.appender.outcomes.length := tally.running_lt_length
  have hr : Q p.request := h.tidy.requests _ (by
    rw [awaited, show d.whole.admitted = d.appender.admitted from rfl, hp]
    exact List.mem_cons_self)
  rw [commit, hp]
  dsimp only
  rcases commit_eq store p d.appender d.scene with ⟨f, w, hc, hw⟩ | ⟨reading, hash, dr, e, w, -, hl, hcreate, hc⟩
  all_goals
    rw [hc]
    generalize hs : ({ d.scene with clock := d.scene.clock.now.2, world := w } : Scene W) = s
    have hworld : w = s.world := hs ▸ rfl
    have hwatch : s.watch = d.scene.watch := hs ▸ rfl
  · have ha := failAdmitted_eq hQ hr f d.appender s
    have hreport := watch_failAdmitted_of_countable (isUncountable_eq_false hQ hr s.watch) f d.appender
    rw [verdict_of_set hlt (congrArg Appender.outcomes ha), ha, hhand]
    refine .failed ?_ ⟨p.timed, hwatch ▸ hreport⟩
    rw [(samePlace_failAdmitted f p d.appender s).2, ← hworld]
    refine hw.imp_right ?_
    rintro ⟨_, _, dr, _, _, hd⟩
    exact ⟨dr, f, hd⟩
  · rw [verdict_of_set hlt (a := (storeAdmitted p dr hash e d.appender s).1) rfl, hhand]
    exact .stored hl (hworld ▸ hcreate) (hwatch ▸ rfl)

end Writer

namespace Sound

theorem fresh (w : W) (clock : Clock) (watch : Watch) : Sound Q (Desk.fresh w clock watch) := by
  refine ⟨tidy_fresh, .nil, .nil, fun h => absurd h (by simp [Desk.fresh]), ?_,
    fun h => absurd h (by simp [Desk.fresh, Appender.fresh]), ?_⟩
  · exact fun _ => ⟨rfl, rfl, rfl⟩
  · intro front back hq
    exact absurd hq (by simp [Desk.fresh, Appender.fresh])

theorem refuse (h : Sound Q d) {r : Request} (hr : r.accepted = none) : Sound Q (d.refuse r).2 := by
  rcases refuse_cases hr d with ⟨f, he⟩ | ⟨f, he⟩
  · rw [he]
    exact h
  · rw [he]
    exact ⟨⟨h.tidy.tally.extend (by simp) (by simp), h.tidy.requests⟩, h.record.extend _, h.doors, h.busy, h.resting,
      h.stopped, h.marked⟩

theorem hire (h : Sound Q d) (hs : d.appender.started = false) : Sound Q d.hire := by
  refine ⟨h.tidy.of_same ⟨rfl, rfl, rfl⟩, h.record.note (.inl rfl), (hs ▸ h.doors).hire, h.busy, ?_, h.stopped, h.marked⟩
  exact fun _ => h.resting (.inl hs)

theorem launch (h : Sound Q d) (store : Store W) : Sound Q (d.launch store).2 := by
  have hlaunched := launched_launch store d
  generalize (d.launch store).2 = d' at hlaunched ⊢
  cases hlaunched with
  | nothing => exact h
  | unanswered hs | answered hs =>
    obtain ⟨tidy, record, doors, busy, resting, stopped, marked⟩ := h.hire hs
    exact ⟨tidy.of_same ⟨rfl, rfl, rfl⟩, record, doors, busy, resting, stopped, marked⟩

theorem enqueue (h : Sound Q d) {r : Request} (hr : Q r) (hc : d.appender.closed = false)
    (hs : d.appender.started = true) : Sound Q (d.enqueue r) := by
  refine ⟨?_, ?_, ?_, h.busy, ?_, h.stopped, ?_⟩
  · refine (h.tidy.enqueue hr).of_same ⟨?_, rfl, rfl⟩
    exact (List.append_assoc d.held d.appender.queue _).symm
  · have hq : (d.enqueue r).appender.queued = d.appender.queued ++ [d.appender.outcomes.length] := filterMap_concat _ _ _
    rw [hq]
    exact h.record.enqueue r
  · exact h.doors.note rfl (by simp) (fun hclosed => absurd (hc.symm.trans hclosed) (by decide))
  · intro hrest
    rcases hrest with hn | hn
    · exact absurd (hs.symm.trans hn) (by decide)
    · exact absurd (hc.symm.trans (h.stopped hn)) (by decide)
  · intro front back hq
    have hmem : Item.stop ∈ d.appender.queue := by
      have hall : Item.stop ∈ d.appender.queue ++ [.request d.appender.outcomes.length r] := by
        rw [show d.appender.queue ++ [.request d.appender.outcomes.length r] = front ++ .stop :: back from hq]
        exact List.mem_append_right _ List.mem_cons_self
      simpa using hall
    obtain ⟨f, b, hfb⟩ := List.append_of_mem hmem
    exact absurd (hc.symm.trans (h.marked f b hfb).2) (by decide)

theorem shut (h : Sound Q d) : Sound Q d.shut := by
  refine ⟨h.tidy.of_same ⟨rfl, rfl, rfl⟩, h.record.note (.inr rfl), h.doors.close, h.busy, h.resting, fun _ => rfl, ?_⟩
  exact fun front back hq => ⟨(h.marked front back hq).1, rfl⟩

theorem mark (h : Sound Q d) (hc : d.appender.closed = true) (hs : d.appender.started = true)
    (hn : d.appender.stopped = false) (hq : .stop ∉ d.appender.queue) : Sound Q d.mark := by
  refine ⟨?_, ?_, h.doors, h.busy, ?_, h.stopped, ?_⟩
  · refine h.tidy.stop.of_same ⟨?_, rfl, rfl⟩
    exact (List.append_assoc d.held d.appender.queue _).symm
  · have hqueued : d.mark.appender.queued = d.appender.queued := (filterMap_concat _ _ _).trans (List.append_nil _)
    rw [hqueued]
    exact h.record
  · intro hrest
    rcases hrest with hr | hr
    · exact absurd (hs.symm.trans hr) (by decide)
    · exact absurd (hn.symm.trans hr) (by decide)
  · intro front back he
    refine ⟨?_, hc⟩
    rcases List.eq_nil_or_concat back with rfl | ⟨b, x, rfl⟩
    · rfl
    · rw [List.concat_eq_append, ← List.cons_append, ← List.append_assoc] at he
      have hsame : d.appender.queue = front ++ .stop :: b := (List.append_inj' he rfl).1
      exact absurd (hsame ▸ List.mem_append_right _ List.mem_cons_self) hq

theorem cancel (h : Sound Q d) (n : Nat) : Sound Q (d.cancel n) := by
  rw [Desk.cancel, Appender.cancel]
  split
  · rename_i hn
    refine ⟨⟨h.tidy.tally.withdraw hn, h.tidy.requests⟩, h.record.withdraw hn, h.doors, h.busy, h.resting, h.stopped, h.marked⟩
  · exact h
  · exact h

theorem take (h : Sound Q d) : Sound Q d.take := by
  have htaken := d.taken_take
  generalize d.take = d' at htaken ⊢
  cases htaken with
  | nothing _ => exact h
  | @stop rest hf hq =>
    obtain ⟨rfl, hc⟩ := h.marked [] rest hq
    obtain ⟨⟨tally, requests⟩, -⟩ := h.of_free hf
    have record := h.record
    have hheld : d.held = [] := by
      rw [held, hf.hand]
      rfl
    rw [queued, hq] at tally record
    rw [awaited, hq] at requests
    have htidy : Tidy Q { d.appender with queue := [] } := ⟨tally, requests⟩
    refine ⟨htidy.of_same ⟨?_, rfl, rfl⟩, record, h.doors, h.busy, ?_, fun _ => hc, ?_⟩
    · exact congrArg (· ++ []) hheld
    · exact fun _ => ⟨rfl, hf.hand, hf.admitted⟩
    · intro front back hnil
      exact absurd hnil (by simp)
  | @request n r rest hf hq =>
    obtain ⟨htidy, record⟩ := h.of_free hf
    rw [queued_cons hq] at record
    refine ⟨htidy.of_same ⟨?_, rfl, rfl⟩, ?_, ?_, fun _ => hf.admitted, ?_, h.stopped, ?_⟩
    · exact hq.symm
    · rw [hf.admitted]
      exact record.take
    · exact h.doors.note rfl (by simp) (fun _ => rfl)
    · intro hrest
      rcases hrest with hr | hr
      · exact absurd (hf.started.symm.trans hr) (by decide)
      · exact absurd (hf.stopped.symm.trans hr) (by decide)
    · intro front back hr
      exact h.marked (.request n r :: front) back (hq.trans (congrArg (Item.request n r :: ·) hr))

theorem look (hQ : ∀ r, Q r → r.eventType.display?.isSome = true) (h : Sound Q d) (store : Store W) :
    Sound Q (d.look store) := by
  rcases Option.eq_none_or_eq_some d.hand with hh | ⟨⟨n, r⟩, hh⟩
  · rw [Desk.look, hh]
    exact h
  obtain ⟨-, tally, requests, record⟩ := h.of_hand hh
  have hbusy : ¬(d.appender.started = false ∨ d.appender.stopped = true) := fun hrest =>
    absurd ((h.resting hrest).2.1.symm.trans hh) (by simp)
  have hlooked := looked_look hQ h store hh
  generalize d.look store = d' at hlooked ⊢
  cases hlooked with
  | dropped hc =>
    refine ⟨⟨tally.drop hc, ?_⟩, record.drop hc, ?_, fun _ => rfl, fun hrest => absurd hrest hbusy, h.stopped, h.marked⟩
    · exact fun q hq => requests q (List.mem_cons_of_mem r hq)
    · exact h.doors.note rfl (by simp) (fun _ => rfl)
  | known hn hr _ | answered hn hr _ _ _ =>
    subst hn hr
    refine ⟨⟨tally.take, requests⟩, record.run, ?_, fun hn => absurd hn (by simp), fun hrest => absurd hrest hbusy,
      h.stopped, h.marked⟩
    exact h.doors.note rfl (by simp) (fun _ => rfl)
  | @unanswered f s _ =>
    have htally := tally.take.settle (o := .failed f) (by simp) (by simp)
    have hrecord := record.run.settle (o := .failed f) rfl (by simp)
    rw [List.set_set] at htally hrecord
    refine ⟨⟨htally, ?_⟩, hrecord, ?_, fun _ => rfl, fun hrest => absurd hrest hbusy, h.stopped, h.marked⟩
    · exact fun q hq => requests q (List.mem_cons_of_mem r hq)
    · exact (h.doors.note rfl (by simp) (fun _ => rfl)).note rfl (by simp) (fun _ => rfl)

theorem commit (hQ : ∀ r, Q r → r.eventType.display?.isSome = true) (h : Sound Q d) (store : Store W) :
    Sound Q (d.commit store) := by
  rcases Option.eq_none_or_eq_some d.appender.admitted with hp | ⟨p, hp⟩
  · rw [Desk.commit, hp]
    exact h
  obtain ⟨-, tally, requests, record⟩ := h.of_admitted hp
  have hbusy : ¬(d.appender.started = false ∨ d.appender.stopped = true) := fun hrest =>
    absurd ((h.resting hrest).2.2.symm.trans hp) (by simp)
  have hcommitted := committed_commit hQ h store hp
  generalize d.commit store = d' at hcommitted ⊢
  cases hcommitted with
  | failed _ | stored _ _ =>
    refine ⟨⟨tally.settle (by simp) (by simp), requests⟩, record.settle rfl (by simp), ?_, fun _ => rfl,
      fun hrest => absurd hrest hbusy, h.stopped, h.marked⟩
    exact h.doors.note rfl (by simp) (fun _ => rfl)

end Sound

/-- From one desk to the other nobody has closed the appender, started the writer or queued a stop mark. -/
structure Calm (d d' : Desk W) : Prop where
  closed : d'.appender.closed = d.appender.closed
  started : d'.appender.started = d.appender.started
  journal : d.journal ⊆ d'.journal
  unmarked : d.appender.stopped = false → .stop ∉ d.appender.queue →
    d'.appender.stopped = false ∧ .stop ∉ d'.appender.queue

namespace Calm

private theorem refl (d : Desk W) : Calm d d := ⟨rfl, rfl, List.Subset.refl _, fun hs hq => ⟨hs, hq⟩⟩

theorem refuse {r : Request} (hr : r.accepted = none) (d : Desk W) : Calm d (d.refuse r).2 := by
  rcases refuse_cases hr d with ⟨f, he⟩ | ⟨f, he⟩
  · rw [he]
    exact refl d
  · rw [he]
    exact ⟨rfl, rfl, List.Subset.refl _, fun hs hq => ⟨hs, hq⟩⟩

theorem cancel (n : Nat) (d : Desk W) : Calm d (d.cancel n) := by
  rw [Desk.cancel, Appender.cancel]
  split
  · exact ⟨rfl, rfl, List.Subset.refl _, fun hs hq => ⟨hs, hq⟩⟩
  · exact refl d
  · exact refl d

theorem take (d : Desk W) : Calm d d.take := by
  have htaken := d.taken_take
  generalize d.take = d' at htaken ⊢
  cases htaken with
  | nothing _ => exact refl d
  | stop _ hq => exact ⟨rfl, rfl, List.Subset.refl _, fun _ hn => absurd (hq ▸ List.mem_cons_self) hn⟩
  | request _ hq =>
    refine ⟨rfl, rfl, List.subset_append_left _ _, fun hs hn => ⟨hs, fun hr => hn ?_⟩⟩
    rw [hq]
    exact List.mem_cons_of_mem _ hr

theorem look (hQ : ∀ r, Q r → r.eventType.display?.isSome = true) (h : Sound Q d) (store : Store W) :
    Calm d (d.look store) := by
  rcases Option.eq_none_or_eq_some d.hand with hh | ⟨⟨n, r⟩, hh⟩
  · rw [Desk.look, hh]
    exact refl d
  have hlooked := looked_look hQ h store hh
  generalize d.look store = d' at hlooked ⊢
  cases hlooked with
  | dropped _ | known _ _ _ | answered _ _ _ _ _ =>
    exact ⟨rfl, rfl, List.subset_append_left _ _, fun hs hq => ⟨hs, hq⟩⟩
  | unanswered _ =>
    refine ⟨rfl, rfl, ?_, fun hs hq => ⟨hs, hq⟩⟩
    exact List.subset_append_of_subset_left _ (List.subset_append_left _ _)

theorem commit (hQ : ∀ r, Q r → r.eventType.display?.isSome = true) (h : Sound Q d) (store : Store W) :
    Calm d (d.commit store) := by
  rcases Option.eq_none_or_eq_some d.appender.admitted with hp | ⟨p, hp⟩
  · rw [Desk.commit, hp]
    exact refl d
  have hcommitted := committed_commit hQ h store hp
  generalize d.commit store = d' at hcommitted ⊢
  cases hcommitted with
  | failed _ | stored _ _ => exact ⟨rfl, rfl, List.subset_append_left _ _, fun hs hq => ⟨hs, hq⟩⟩

end Calm

/-- What is kept of a desk in order by everything that can happen at it. -/
structure Invariant {S : Type} (store : Store W) (strike : S → W → W) (Q : Request → Prop) (P : Desk W → Prop) :
    Prop where
  refuse : ∀ r d, Sound Q d → r.accepted = none → P d → P (d.refuse r).2
  hire : ∀ d, Sound Q d → P d → P d.hire
  launch : ∀ d, Sound Q d → P d → P (d.launch store).2
  enqueue : ∀ r d, Sound Q d → P d → P (d.enqueue r)
  shut : ∀ d, Sound Q d → P d → P d.shut
  mark : ∀ d, Sound Q d → P d → P d.mark
  cancel : ∀ n d, Sound Q d → P d → P (d.cancel n)
  outage : ∀ o d, Sound Q d → P d → P (d.strikeWith (strike o))
  take : ∀ d, Sound Q d → P d → P d.take
  look : ∀ d, Sound Q d → P d → P (d.look store)
  commit : ∀ d, Sound Q d → P d → P (d.commit store)

end Desk

end AuditTrail
