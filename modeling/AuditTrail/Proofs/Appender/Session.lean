import AuditTrail.Appender

/-!
# Sessions

A session is an appender in its scene, to which moves happen one after the other: calls of its
producers, steps of its writer, outages of its store, and a fresh appender in the place of the one
before. The steps of the writer are moves of their own, so that anything may happen between two of
them. What every move keeps, every run keeps (`Session.run_induction`).
-/

namespace AuditTrail

/-- What can happen to an appender whose store suffers outages of a type `S`. -/
inductive Move (S : Type) where
  | start
  | submit (r : Request)
  | cancel (ticket : Nat)
  /-- The writer takes so many steps; in each it takes a request or commits the one it has taken. -/
  | work (steps : Nat)
  | close (held : Bool) (timeout : Option Int)
  | outage (o : S)
  /-- A fresh appender comes after the one before, which does nothing more, with a clock of its own
  or with the same one. -/
  | replace (clock : Option Clock)

/-- An appender in its scene. -/
structure Session (W : Type) where
  appender : Appender
  scene : Scene W

namespace Session

variable {W S : Type}

def fresh (w : W) (clock : Clock) (watch : Watch) : Session W := ⟨.fresh, ⟨w, clock, watch⟩⟩

def after {α : Type} (act : Appender.Act W α) (s : Session W) : Session W :=
  let out := act (s.appender, s.scene)
  ⟨out.2.1, out.2.2⟩

/-- A session after a move on a store, whose outages change its world in a given way. -/
def step (store : Store W) (strike : S → W → W) : Move S → Session W → Session W
  | .start, s => s.after (Appender.start store)
  | .submit r, s => s.after (Appender.submit r)
  | .cancel ticket, s => { s with appender := (s.appender.cancel ticket).2 }
  | .work steps, s =>
    let out := Appender.work store false steps s.appender s.scene
    ⟨out.1, out.2⟩
  | .close held timeout, s => s.after (Appender.close store held timeout)
  | .outage o, s => { s with scene := { s.scene with world := strike o s.scene.world } }
  | .replace clock, s => ⟨.fresh, { s.scene with clock := clock.getD s.scene.clock }⟩

def run (store : Store W) (strike : S → W → W) (moves : List (Move S)) (s : Session W) : Session W :=
  moves.foldl (fun s m => step store strike m s) s

/-- What every move keeps, every run keeps. -/
theorem run_induction {store : Store W} {strike : S → W → W} {P : Session W → Prop}
    (hstep : ∀ m s, P s → P (step store strike m s)) (moves : List (Move S)) {s : Session W} (h : P s) :
    P (run store strike moves s) := by
  induction moves generalizing s with
  | nil => exact h
  | cons m rest ih => exact ih (hstep m s h)

end Session

namespace Appender

variable {W : Type} {store : Store W}

@[simp] theorem settleTicket_tip (n : Nat) (o : Outcome) (a : Appender) : (a.settleTicket n o).tip = a.tip := rfl

@[simp] theorem settleTicket_lastAt (n : Nat) (o : Outcome) (a : Appender) :
    (a.settleTicket n o).lastAt = a.lastAt := rfl

@[simp] theorem settleTicket_admitted (n : Nat) (o : Outcome) (a : Appender) :
    (a.settleTicket n o).admitted = a.admitted := rfl

/-- Two appenders stand at the same place of a chain. -/
structure SamePlace (a b : Appender) : Prop where
  tip : a.tip = b.tip
  lastAt : a.lastAt = b.lastAt
  admitted : a.admitted = b.admitted

theorem SamePlace.refl (a : Appender) : SamePlace a a := ⟨rfl, rfl, rfl⟩

theorem samePlace_submit (r : Request) (a : Appender) (s : Scene W) :
    SamePlace (submit r (a, s)).2.1 a ∧ (submit r (a, s)).2.2.world = s.world := by
  rw [submit]
  split
  · split
    · exact ⟨.refl a, rfl⟩
    · exact ⟨⟨rfl, rfl, rfl⟩, rfl⟩
  · exact ⟨.refl a, rfl⟩
  · split
    · exact ⟨.refl a, rfl⟩
    · exact ⟨⟨rfl, rfl, rfl⟩, rfl⟩

theorem samePlace_cancel (ticket : Nat) (a : Appender) : SamePlace (a.cancel ticket).2 a := by
  rw [cancel]
  split
  · exact ⟨rfl, rfl, rfl⟩
  · exact .refl a
  · exact .refl a

theorem samePlace_failAdmitted (f : Fault) (p : Admitted) (a : Appender) (s : Scene W) :
    SamePlace (failAdmitted f p a s).1 { a with admitted := none } ∧
      (failAdmitted f p a s).2.world = s.world := by
  rw [failAdmitted]
  split
  · exact ⟨⟨rfl, rfl, rfl⟩, rfl⟩
  · exact ⟨⟨rfl, rfl, rfl⟩, rfl⟩

theorem lt_of_stampAfter {last : Option Instant} {reading t : Instant}
    (h : stampAfter last reading = .ok t) {l : Instant} (hl : last = some l) : l.moment < t.moment := by
  subst hl
  rw [stampAfter, Fault.bind_eq_ok_iff] at h
  obtain ⟨late, hn, ht⟩ := h
  cases late with
  | true =>
    rw [if_pos rfl] at ht
    have hm := Instant.moment_of_shift ht
    simp only [Duration.perMilli] at hm
    omega
  | false =>
    simp only [Bool.false_eq_true, if_false, pure, Except.pure, Except.ok.injEq] at ht
    subst ht
    rw [Instant.notAfter] at hn
    split at hn
    · have := of_decide_eq_false (Except.ok.inj hn)
      omega
    · exact absurd hn (by simp)

/-- The draft of a request follows the hash that it was admitted with, carries the hash that its own
fields give, and is after the last instant. -/
theorem link_eq_ok {p : Admitted} {last : Option Instant} {reading : Instant} {hash : Text} {d : Draft}
    (h : link p last reading = .ok (hash, d)) :
    d = draftOf p d.createdAt hash ∧ stampAfter last reading = .ok d.createdAt ∧
      Link.hash d.previousHash d.eventType d.createdAt d.details = .ok hash := by
  rw [link, Fault.bind_eq_ok_iff] at h
  obtain ⟨t, hs, h⟩ := h
  obtain ⟨hash', hh, h⟩ := Fault.bind_eq_ok_iff.mp h
  simp only [pure, Except.pure, Except.ok.injEq, Prod.mk.injEq] at h
  obtain ⟨rfl, rfl⟩ := h
  exact ⟨rfl, hs, hh⟩

/-- What a commit does with the next reading of the clock: it fails and leaves everything else where it was, except
that a store may have refused the linked draft, or it stores the linked draft and advances to it. -/
theorem commit_eq (store : Store W) (p : Admitted) (a : Appender) (s : Scene W) :
    (∃ f w, commit store p a s = failAdmitted f p a { s with clock := s.clock.now.2, world := w } ∧
      (w = s.world ∨ ∃ reading hash d, s.clock.now.1 = .ok reading ∧ link p a.lastAt reading = .ok (hash, d) ∧
        store.create d s.world = (.error f, w))) ∨
    ∃ reading hash d e w, s.clock.now.1 = .ok reading ∧ link p a.lastAt reading = .ok (hash, d) ∧
      store.create d s.world = (.ok e, w) ∧
      commit store p a s = storeAdmitted p d hash e a { s with clock := s.clock.now.2, world := w } := by
  rw [commit]
  cases hn : s.clock.now with
  | mk reading clock =>
    cases reading with
    | error f => exact .inl ⟨f, s.world, rfl, .inl rfl⟩
    | ok t =>
      simp only [bind, Except.bind]
      cases hl : link p a.lastAt t with
      | error f => exact .inl ⟨f, s.world, rfl, .inl rfl⟩
      | ok linked =>
        obtain ⟨hash, d⟩ := linked
        cases hc : store.create d s.world with
        | mk created w =>
          cases created with
          | error f =>
            refine .inl ⟨f, w, ?_, .inr ⟨t, hash, d, rfl, hl, hc⟩⟩
            simp only [hc]
          | ok e =>
            refine .inr ⟨t, hash, d, e, w, rfl, hl, hc, ?_⟩
            simp only [hc]

theorem commit_cases (store : Store W) (p : Admitted) (a : Appender) (s : Scene W) :
    (∃ f s', commit store p a s = failAdmitted f p a s' ∧
      (s'.world = s.world ∨ ∃ d g, store.create d s.world = (.error g, s'.world))) ∨
    ∃ reading hash d e s', link p a.lastAt reading = .ok (hash, d) ∧
      store.create d s.world = (.ok e, s'.world) ∧ commit store p a s = storeAdmitted p d hash e a s' := by
  rcases commit_eq store p a s with ⟨f, w, hc, hw⟩ | ⟨reading, hash, d, e, w, -, hl, hc, hs⟩
  · refine .inl ⟨f, _, hc, hw.imp_right ?_⟩
    rintro ⟨-, -, d, -, -, hd⟩
    exact ⟨d, f, hd⟩
  · exact .inr ⟨reading, hash, d, e, _, hl, hc, hs⟩

/-- What taking a request and committing one keep, the writer keeps. -/
theorem work_induction {held : Bool} {P : Appender → Scene W → Prop}
    (htake : ∀ a s, P a s → P (takeNext store a s).1 (takeNext store a s).2)
    (hcommit : ∀ p a s, a.admitted = some p → P a s → P (commit store p a s).1 (commit store p a s).2)
    (n : Nat) {a : Appender} {s : Scene W} (h : P a s) :
    P (work store held n a s).1 (work store held n a s).2 := by
  induction n generalizing a s with
  | zero => exact h
  | succ n ih =>
    rw [work]
    cases ha : a.admitted with
    | some p =>
      cases held with
      | true => exact h
      | false => exact ih (hcommit p a s ha h)
    | none =>
      by_cases hq : (a.stopped || a.queue.isEmpty) = true
      · simp only [hq, if_true]
        exact h
      · simp only [hq, Bool.false_eq_true, if_false]
        exact ih (htake a s h)

theorem close_of_unstarted {held : Bool} {timeout : Option Int} {a : Appender} {s : Scene W} (ho : a.closed = false)
    (hst : a.started = false) : close store held timeout (a, s) = (.ok (), { a with closed := true }, s) := by
  rw [close, ho, hst]
  rfl

/-- Closing an appender that was started does what its writer does behind a stop mark, and reports. -/
theorem close_of_started (store : Store W) (held : Bool) (timeout : Option Int) {a : Appender} (s : Scene W)
    (ho : a.closed = false) (hst : a.started = true) :
    let out := settle store held { a with closed := true, queue := a.queue ++ [.stop] } s
    ∃ r watch, close store held timeout (a, s) = (r, out.1, { out.2 with watch := watch }) := by
  rw [close]
  simp only [ho, hst, Bool.false_eq_true, Bool.not_true, if_false]
  split
  · exact ⟨_, _, rfl⟩
  · split
    · exact ⟨_, _, rfl⟩
    · exact ⟨_, _, rfl⟩

/-- What closing the queue, reporting and the writer keep, closing an appender keeps. -/
theorem close_induction {held : Bool} {P : Appender → Scene W → Prop}
    (hclosed : ∀ a s, P a s → P { a with closed := true } s)
    (hstop : ∀ a s, P a s → P { a with closed := true, queue := a.queue ++ [.stop] } s)
    (hwatch : ∀ a s watch, P a s → P a { s with watch := watch })
    (hwork : ∀ n a s, P a s → P (work store held n a s).1 (work store held n a s).2) (timeout : Option Int)
    {a : Appender} {s : Scene W} (h : P a s) :
    P (close store held timeout (a, s)).2.1 (close store held timeout (a, s)).2.2 := by
  by_cases hc : a.closed = true
  · rw [close_of_closed hc]
    exact h
  rw [Bool.not_eq_true] at hc
  cases hst : a.started with
  | false =>
    rw [close_of_unstarted hc hst]
    exact hclosed a s h
  | true =>
    obtain ⟨r, watch, he⟩ := close_of_started store held timeout s hc hst
    rw [he]
    exact hwatch _ _ watch (hwork _ _ s (hstop a s h))

end Appender

namespace Store

variable {W : Type} {store : Store W}

/-- What an appender's calls of a store keep of its world. -/
structure Preserves (store : Store W) (P : W → Prop) : Prop where
  findLast : ∀ w, P w → P (store.findLast w).2
  create : ∀ d w, P w → P (store.create d w).2

namespace Preserves

variable {P : W → Prop}

private theorem loadTip (h : store.Preserves P) (a : Appender) {s : Scene W} (hs : P s.world) :
    P (Appender.loadTip store (a, s)).2.2.world := by
  have hl := h.findLast s.world hs
  rw [Appender.loadTip]
  split
  all_goals
    rename_i hf
    rw [hf] at hl
    exact hl

private theorem takeNext (h : store.Preserves P) (a : Appender) (s : Scene W) (hs : P s.world) :
    P (Appender.takeNext store a s).2.world := by
  rw [Appender.takeNext]
  split
  · exact hs
  · exact hs
  · dsimp only
    split
    · exact hs
    · split
      · exact hs
      · split
        · rename_i hl
          exact (congrArg (fun out => P out.2.2.world) hl).mp (h.loadTip _ hs)
        · rename_i hl
          rw [(Appender.samePlace_failAdmitted _ _ _ _).2]
          exact (congrArg (fun out => P out.2.2.world) hl).mp (h.loadTip _ hs)

private theorem commit (h : store.Preserves P) (p : Admitted) (a : Appender) (s : Scene W) (hs : P s.world) :
    P (Appender.commit store p a s).2.world := by
  rcases Appender.commit_cases store p a s with ⟨f, s', hc, hw⟩ | ⟨_, hash, d, e, s', -, hc, hstored⟩
  · rw [hc, (Appender.samePlace_failAdmitted f p a s').2]
    rcases hw with hw | ⟨d, g, hd⟩
    · exact hw ▸ hs
    · have hk := h.create d s.world hs
      rwa [hd] at hk
  · have hk := h.create d s.world hs
    rw [hc] at hk
    rw [hstored]
    exact hk

private theorem work (h : store.Preserves P) (held : Bool) (n : Nat) {a : Appender} {s : Scene W} (hs : P s.world) :
    P (Appender.work store held n a s).2.world :=
  Appender.work_induction (P := fun _ s => P s.world) (fun a s => h.takeNext a s) (fun p a s _ => h.commit p a s) n hs

end Preserves

end Store

namespace Session

variable {W S : Type} {store : Store W} {strike : S → W → W} {P : W → Prop}

/-- What a store's calls and its outages keep of its world, every run keeps. -/
theorem world_run (h : store.Preserves P) (hstrike : ∀ o w, P w → P (strike o w)) (moves : List (Move S))
    {s : Session W} (hs : P s.scene.world) : P (run store strike moves s).scene.world := by
  refine run_induction (P := fun s => P s.scene.world) ?_ moves hs
  intro m s hs
  cases m with
  | start =>
    rw [step, after, Appender.start]
    split
    · exact hs
    · split
      · exact hs
      · have hl := h.loadTip s.appender hs
        cases hf : Appender.loadTip store (s.appender, s.scene) with
        | mk found out =>
          rw [hf] at hl
          cases found <;> exact hl
  | submit r =>
    rw [step, after, (Appender.samePlace_submit r s.appender s.scene).2]
    exact hs
  | cancel ticket => exact hs
  | work n => exact h.work false n hs
  | close held timeout =>
    exact Appender.close_induction (P := fun _ s => P s.world) (fun _ _ hs => hs) (fun _ _ hs => hs)
      (fun _ _ _ hs => hs) (fun n _ _ hs => h.work held n hs) timeout hs
  | outage o => exact hstrike o _ hs
  | replace clock => exact hs

end Session

end AuditTrail
