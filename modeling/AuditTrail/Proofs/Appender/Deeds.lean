import AuditTrail.Proofs.Appender.Failures

/-!
# Failures leave no trace

Whichever step fails a request, the rows, the tip and the last instant stay as they are. So the rows are determined by
what was stored: the requests and the readings of the clock that they got (`Session.rows_of_deeds`), as if no other
request had ever been submitted (`Session.failures_leave_no_trace`).
-/

namespace AuditTrail

private theorem Request.accepted_of_accepted {r q : Request} (h : r.accepted = some q) : q.accepted = some q := by
  rw [accepted] at h
  cases hd : Canonical.toJson r.details with
  | error f => simp [hd] at h
  | ok details =>
    obtain ⟨body, hb, rfl⟩ := Fault.map_eq_ok_iff.mp hd
    rw [hd] at h
    rw [← Option.some.inj h, accepted, Canonical.toJson, Canonical.encode_listed, hb]
    simp only [Except.map, Canonical.listed_listed]

def Clock.ofReadings : List Instant → Clock
  | [] => default
  | t :: later => .scripted (.ok t) (later.map .ok)

private theorem Clock.now_ofReadings (t : Instant) (later : List Instant) :
    (ofReadings (t :: later)).now.1 = .ok t ∧ (later ≠ [] → (ofReadings (t :: later)).now.2 = ofReadings later) := by
  cases later with
  | nil => exact ⟨rfl, fun h => absurd rfl h⟩
  | cons u later => exact ⟨rfl, fun _ => rfl⟩

/-- A request that was stored, and the reading of the clock that it got. -/
structure Deed where
  request : Request
  reading : Instant

namespace Deed

/-- The rows with one more, which a deed links to the last one. -/
def enter (rows : List Draft) (d : Deed) : Except Fault (List Draft) :=
  let last := (⟨rows, default⟩ : Ledger)
  (Appender.link ⟨0, d.request, last.tip, false⟩ last.lastAt d.reading).map fun linked => rows ++ [linked.2]

private theorem add_of_enter {rows rows' : List Draft} {d : Deed} {clock : Clock} (he : enter rows d = .ok rows')
    (hn : clock.now.1 = .ok d.reading) : Ledger.add ⟨rows, clock⟩ d.request = ⟨rows', clock.now.2⟩ := by
  obtain ⟨linked, hl, rfl⟩ := Fault.map_eq_ok_iff.mp he
  have hlink : (clock.now.1 >>= Appender.link ⟨0, d.request, (⟨rows, clock⟩ : Ledger).tip, false⟩
      (⟨rows, clock⟩ : Ledger).lastAt) = .ok linked := by
    rw [hn]
    exact hl
  rw [Ledger.add]
  dsimp only
  rw [hlink]

end Deed

namespace Appender

variable {W : Type} {store : Store W} {a : Appender} {s : Scene W}

/-- What a commit stores, if it stores its request. -/
def deed? (store : Store W) (p : Admitted) (a : Appender) (s : Scene W) : Option Deed :=
  match s.clock.now.1 with
  | .error _ => none
  | .ok reading =>
    match link p a.lastAt reading with
    | .error _ => none
    | .ok (_, d) =>
      match (store.create d s.world).1 with
      | .error _ => none
      | .ok _ => some ⟨p.request, reading⟩

/-- A commit stores nothing and fails its request, or stores it with the reading that it got. -/
private theorem deed?_cases (store : Store W) (p : Admitted) (a : Appender) (s : Scene W) :
    (deed? store p a s = none ∧ ∃ f w,
      commit store p a s = failAdmitted f p a { s with clock := s.clock.now.2, world := w } ∧
      (w = s.world ∨ ∃ d, store.create d s.world = (.error f, w))) ∨
    ∃ reading hash d e w, deed? store p a s = some ⟨p.request, reading⟩ ∧
      link p a.lastAt reading = .ok (hash, d) ∧ store.create d s.world = (.ok e, w) ∧
      commit store p a s = storeAdmitted p d hash e a { s with clock := s.clock.now.2, world := w } := by
  rw [commit, deed?]
  cases hn : s.clock.now with
  | mk reading clock =>
    cases reading with
    | error f => exact .inl ⟨rfl, f, s.world, rfl, .inl rfl⟩
    | ok t =>
      simp only [bind, Except.bind]
      cases hl : link p a.lastAt t with
      | error f => exact .inl ⟨rfl, f, s.world, rfl, .inl rfl⟩
      | ok linked =>
        obtain ⟨hash, d⟩ := linked
        cases hc : store.create d s.world with
        | mk created w =>
          cases created with
          | error f =>
            refine .inl ⟨by simp only [hc], f, w, ?_, .inr ⟨d, hc⟩⟩
            simp only [hc]
          | ok e =>
            refine .inr ⟨t, hash, d, e, w, ?_, hl, hc, ?_⟩
            · simp only [hc]
            · simp only [hc]

/-- What so many steps of the writer store. -/
def deeds (store : Store W) (held : Bool) : Nat → Appender → Scene W → List Deed
  | 0, _, _ => []
  | n + 1, a, s =>
    match a.admitted with
    | some p =>
      if held then []
      else
        let out := commit store p a s
        (deed? store p a s).toList ++ deeds store held n out.1 out.2
    | none =>
      if a.stopped || a.queue.isEmpty then []
      else
        let out := takeNext store a s
        deeds store held n out.1 out.2

end Appender

namespace Session

variable {W S : Type}

def deedsOf (store : Store W) : Move S → Session W → List Deed
  | .work n, s => Appender.deeds store false n s.appender s.scene
  | .close held _, s =>
    let a := s.appender
    if a.closed || !a.started then []
    else
      let b : Appender := { a with closed := true, queue := a.queue ++ [.stop] }
      Appender.deeds store held (2 * b.queue.length + 1) b s.scene
  | _, _ => []

/-- What a run stores, in order. -/
def deeds (store : Store W) (strike : S → W → W) : List (Move S) → Session W → List Deed
  | [], _ => []
  | m :: rest, s => deedsOf store m s ++ deeds store strike rest (step store strike m s)

end Session

namespace Appender

/-- The rows of the store without their ids. -/
def drafts (s : Scene Memory) : List Draft := s.world.entries.map Entry.draft

variable {a : Appender} {s : Scene Memory}

private theorem enter_eq (h : InStep a s) {p : Admitted} (ha : a.admitted = some p) (reading : Instant) :
    Deed.enter (drafts s) ⟨p.request, reading⟩ =
      (link p a.lastAt reading).map fun linked => drafts s ++ [linked.2] := by
  obtain ⟨htip, hlast⟩ := h.tip _ (h.admitted p ha)
  have hl : (⟨drafts s, default⟩ : Ledger).lastAt = a.lastAt := (Ledger.lastAt_ofScene s).trans hlast.symm
  have ht : (⟨drafts s, default⟩ : Ledger).tip = p.previousHash := (Ledger.tip_ofScene s).trans htip.symm
  rw [Deed.enter]
  dsimp only
  rw [hl, link_congr (p := ⟨0, p.request, (⟨drafts s, default⟩ : Ledger).tip, false⟩) (q := p) ht rfl]

private theorem enter_commit (h : InStep a s) {p : Admitted} (ha : a.admitted = some p) :
    (deed? Memory.store p a s).toList.foldlM Deed.enter (drafts s) = .ok (drafts (commit Memory.store p a s).2) := by
  rcases deed?_cases Memory.store p a s with ⟨hd, f, w, hc, hw⟩ | ⟨reading, hash, d, e, w, hd, hl, hcreate, hc⟩
  · have hsame : w.entries = s.world.entries := by
      rcases hw with rfl | ⟨d, hcreate⟩
      · rfl
      · have hg : Memory.create d s.world = (.error f, w) := hcreate
        have hkept := Memory.create_error (congrArg Prod.fst hg)
        rwa [hg] at hkept
    have hdrafts : drafts (failAdmitted f p a { s with clock := s.clock.now.2, world := w }).2 = drafts s := by
      rw [drafts, (samePlace_failAdmitted f p a _).2, drafts, hsame]
    rw [hd, hc, hdrafts]
    rfl
  · have hg : Memory.create d s.world = (.ok e, w) := hcreate
    obtain ⟨he, hrows⟩ := Memory.create_ok (congrArg Prod.fst hg)
    rw [hg] at hrows
    have hlinked := enter_eq h ha reading
    rw [hl] at hlinked
    have hdrafts : drafts (storeAdmitted p d hash e a { s with clock := s.clock.now.2, world := w }).2 =
        drafts s ++ [d] := by
      rw [drafts, storeAdmitted]
      dsimp only
      rw [hrows, List.map_append, he]
      rfl
    rw [hd, hc, hdrafts, Option.toList_some, List.foldlM_cons, hlinked]
    rfl

private theorem enter_work (held : Bool) (n : Nat) (h : InStep a s) :
    (deeds Memory.store held n a s).foldlM Deed.enter (drafts s) =
      .ok (drafts (work Memory.store held n a s).2) := by
  induction n generalizing a s with
  | zero => rfl
  | succ n ih =>
    rw [deeds, work]
    cases ha : a.admitted with
    | some p =>
      cases held with
      | true => rfl
      | false =>
        simp only [Bool.false_eq_true, if_false]
        rw [List.foldlM_append, enter_commit h ha]
        exact ih (inStep_commit ha h).1
    | none =>
      by_cases hq : (a.stopped || a.queue.isEmpty) = true
      · simp only [hq, if_true]
        rfl
      · obtain ⟨hnext, hrows⟩ := inStep_takeNext h
        have hkept : drafts (takeNext Memory.store a s).2 = drafts s := congrArg (List.map Entry.draft) hrows
        simp only [hq, Bool.false_eq_true, if_false]
        rw [← hkept]
        exact ih hnext

end Appender

namespace Session

open Appender

private theorem enter_step (m : Move (List Fault)) {s : Session Memory} (h : Extends [] s) :
    (deedsOf Memory.store m s).foldlM Deed.enter (drafts s.scene) =
      .ok (drafts (step Memory.store Memory.strike m s).scene) := by
  have hkept : ∀ {t : Session Memory}, t.scene.world.entries = s.scene.world.entries →
      ([] : List Deed).foldlM Deed.enter (drafts s.scene) = .ok (drafts t.scene) := fun he => by
    rw [drafts, drafts, he]
    rfl
  cases m with
  | start =>
    refine hkept ?_
    rw [step, after, Appender.start]
    split
    · rfl
    · split
      · rfl
      · obtain ⟨b, s', -, he, -, ⟨f, hl⟩ | ⟨t, hl, -⟩⟩ := inStep_loadTip h.1
        · rw [hl]
          exact he
        · rw [hl]
          exact he
  | submit r => exact hkept (congrArg Memory.entries (samePlace_submit r s.appender s.scene).2)
  | cancel n => exact hkept rfl
  | work n => exact enter_work false n h.1
  | close held timeout =>
    rw [step, after, deedsOf]
    dsimp only
    by_cases hc : s.appender.closed = true
    · rw [close_of_closed hc, hc]
      rfl
    rw [Bool.not_eq_true] at hc
    by_cases hst : s.appender.started = true
    · obtain ⟨r, watch, he⟩ := close_of_started Memory.store held timeout s.scene hc hst
      rw [he, if_neg (by simp [hc, hst])]
      exact enter_work held _ (h.1.of_samePlace ⟨rfl, rfl, rfl⟩ rfl)
    · rw [Bool.not_eq_true] at hst
      rw [close_of_unstarted hc hst, if_pos (by simp [hst])]
      rfl
  | outage faults => exact hkept rfl
  | replace clock => exact hkept rfl

/-- The rows are what the deeds of the run give, one behind the other. -/
theorem rows_of_deeds (moves : List (Move (List Fault))) {s : Session Memory} (h : Extends [] s) :
    (deeds Memory.store Memory.strike moves s).foldlM Deed.enter (drafts s.scene) =
      .ok (drafts (run Memory.store Memory.strike moves s).scene) := by
  induction moves generalizing s with
  | nil => rfl
  | cons m rest ih =>
    rw [deeds, List.foldlM_append, enter_step m h]
    exact ih (extends_step m h)

end Session

section Requests

variable {W S : Type} {store : Store W} {Q : Request → Prop} (hQ : ∀ r, Q r → r.eventType.display?.isSome = true)
include hQ

private theorem Appender.request_of_deeds (held : Bool) (n : Nat) {a : Appender} {s : Scene W} (h : Tidy Q a) :
    ∀ d ∈ deeds store held n a s, Q d.request := by
  induction n generalizing a s with
  | zero => exact fun d hd => absurd hd List.not_mem_nil
  | succ n ih =>
    rw [deeds]
    cases ha : a.admitted with
    | some p =>
      cases held with
      | true => exact fun d hd => absurd hd List.not_mem_nil
      | false =>
        intro d hd
        rcases List.mem_append.mp hd with hm | hm
        · have hp : Q p.request := h.requests _ (by rw [awaited, ha]; exact List.mem_cons_self)
          rcases deed?_cases store p a s with ⟨hnone, -⟩ | ⟨reading, -, -, -, -, hsome, -⟩
          · rw [hnone] at hm
            exact absurd hm List.not_mem_nil
          · rw [hsome] at hm
            exact List.mem_singleton.mp hm ▸ hp
        · exact ih (tidy_commit hQ s ha h) d hm
    | none =>
      by_cases hq : (a.stopped || a.queue.isEmpty) = true
      · simp only [hq, if_true]
        exact fun d hd => absurd hd List.not_mem_nil
      · simp only [hq, Bool.false_eq_true, if_false]
        exact ih (tidy_takeNext hQ s ha h)

private theorem Session.request_of_deeds (strike : S → W → W) {moves : List (Move S)}
    (hm : ∀ r, .submit r ∈ moves → ∀ q, r.accepted = some q → Q q) {s : Session W} (h : Appender.Tidy Q s.appender) :
    ∀ d ∈ deeds store strike moves s, Q d.request := by
  induction moves generalizing s with
  | nil => exact fun d hd => absurd hd List.not_mem_nil
  | cons m rest ih =>
    intro d hd
    have hkeep : Appender.Invariant store _ _ := Appender.invariant_tidy hQ
    rcases List.mem_append.mp hd with hd | hd
    · cases m with
      | work n => exact Appender.request_of_deeds hQ false n h d hd
      | close held timeout =>
        rw [deedsOf] at hd
        dsimp only at hd
        split at hd
        · exact absurd hd List.not_mem_nil
        · exact Appender.request_of_deeds hQ held _ (hkeep.stop _ h) d hd
      | _ => exact absurd hd List.not_mem_nil
    · have hstep := hkeep.step strike (fun r hr => hm r (hr ▸ List.mem_cons_self)) h
      exact ih (fun r hr => hm r (List.mem_cons_of_mem m hr)) hstep d hd

end Requests

namespace Session

open Appender

/-- Two sessions have the same rows up to the ids, whatever else happened in them. Tips that both know are the same, and
so is what the next request is linked to. -/
structure SameChain (s t : Session Memory) : Prop where
  rows : drafts s.scene = drafts t.scene
  tip : ∀ x y, s.appender.tip = some x → t.appender.tip = some y → x = y ∧ s.appender.lastAt = t.appender.lastAt
  next : ∀ p q, s.appender.admitted = some p → t.appender.admitted = some q → p.previousHash = q.previousHash ∧
    (p.request = q.request → ∀ reading, link p s.appender.lastAt reading = link q t.appender.lastAt reading)

private theorem sameChain_of_rows {s t : Session Memory} (hs : Extends [] s) (ht : Extends [] t)
    (h : drafts s.scene = drafts t.scene) : SameChain s t := by
  have htip : ∀ {u : Session Memory}, Extends [] u → ∀ x, u.appender.tip = some x →
      x = (⟨drafts u.scene, default⟩ : Ledger).tip ∧ u.appender.lastAt = (⟨drafts u.scene, default⟩ : Ledger).lastAt := by
    intro u hu x hx
    obtain ⟨he, hl⟩ := hu.1.tip x hx
    exact ⟨he.trans (Ledger.tip_ofScene u.scene).symm, hl.trans (Ledger.lastAt_ofScene u.scene).symm⟩
  have hsame : ∀ x y, s.appender.tip = some x → t.appender.tip = some y →
      x = y ∧ s.appender.lastAt = t.appender.lastAt := by
    intro x y hx hy
    obtain ⟨hxs, hls⟩ := htip hs x hx
    obtain ⟨hyt, hlt⟩ := htip ht y hy
    rw [h] at hxs hls
    exact ⟨hxs.trans hyt.symm, hls.trans hlt.symm⟩
  refine ⟨h, hsame, ?_⟩
  intro p q hp hq
  obtain ⟨hhash, hlast⟩ := hsame _ _ (hs.1.admitted p hp) (ht.1.admitted q hq)
  exact ⟨hhash, fun hr reading => hlast ▸ link_congr hhash hr _ reading⟩

/-- The moves of a run in which only given deeds are done, one by one. -/
def retelling (ds : List Deed) : List (Move (List Fault)) := ds.flatMap fun d => [.submit d.request, .work 2]

/-- An idle appender without outages that is asked for one more request stores it and is idle again. -/
private theorem foresees_asked {l : Ledger} {s : Session Memory} {r : Request} (hq : r.accepted = some r)
    (hr : r.eventType.display?.isSome = true) (h : Foresees l s) (hi : s.appender.IsIdle) :
    let t := run Memory.store Memory.strike [.submit r, .work 2] s
    Foresees (l.add r) t ∧ t.appender.IsIdle := by
  have hsubmit := foresees_submit hr h
  rw [show l.offer r = l.add r by rw [Ledger.offer, hq]] at hsubmit
  refine ⟨foresees_work 2 hsubmit, .of_toil ?_⟩
  refine (hsubmit.steady.work 2).2.2.2 ?_
  rw [step, after, submit_of_accepted hq h.opened, toil]
  dsimp only
  rw [hi.1, hi.2]
  exact Nat.le_refl 2

private theorem foresees_taken {l : Ledger} {s : Session Memory} {r : Request} (hq : r.accepted = some r)
    (hr : r.eventType.display?.isSome = true) (h : Foresees l s) (hi : s.appender.IsIdle) :
    let t := run Memory.store Memory.strike [.submit r, .work 1] s
    drafts t.scene = drafts s.scene ∧ ∃ q, t.appender.admitted = some q ∧ q.request = r := by
  have hsteady := (foresees_submit hr h).steady
  have hstopped : s.appender.stopped = false := by
    rw [← Bool.not_eq_true]
    exact fun hs => absurd (h.opened.symm.trans (h.steady.stopped hs).1) (by decide)
  obtain ⟨b, hb, hadmitted, hrunning, hqueue⟩ : ∃ b, step Memory.store Memory.strike (.submit r) s = ⟨b, s.scene⟩ ∧
      b.admitted = none ∧ b.stopped = false ∧ b.queue = [.request s.appender.outcomes.length r] := by
    rw [step, after, submit_of_accepted hq h.opened]
    exact ⟨_, rfl, hi.2, hstopped, by rw [hi.1]; rfl⟩
  rw [hb] at hsteady
  obtain ⟨tip, lastAt, he⟩ := hsteady.takeNext_request hqueue
  rw [run, List.foldl_cons, List.foldl_cons, List.foldl_nil, hb, step]
  dsimp only
  rw [work_one_of_request hadmitted hrunning hqueue, he]
  exact ⟨rfl, _, rfl, rfl⟩

/-- A run in which only given deeds are done has the rows that they give. -/
private theorem foresees_retelling {ds : List Deed} {rows rows' : List Draft} {clock : Clock} {s : Session Memory}
    (hd : ∀ d ∈ ds, d.request.accepted = some d.request ∧ d.request.eventType.display?.isSome = true)
    (he : ds.foldlM Deed.enter rows = .ok rows')
    (hc : ds ≠ [] → clock = .ofReadings (ds.map Deed.reading)) (h : Foresees ⟨rows, clock⟩ s)
    (hi : s.appender.IsIdle) :
    let t := run Memory.store Memory.strike (retelling ds) s
    (∃ later, Foresees ⟨rows', later⟩ t) ∧ t.appender.IsIdle := by
  induction ds generalizing rows clock s with
  | nil =>
    obtain rfl : rows = rows' := Except.ok.inj he
    exact ⟨⟨clock, h⟩, hi⟩
  | cons d rest ih =>
    obtain ⟨hfirst, hrest⟩ := List.forall_mem_cons.mp hd
    rw [List.foldlM_cons] at he
    obtain ⟨next, hnext, he⟩ := Fault.bind_eq_ok_iff.mp he
    obtain ⟨hnow, hlater⟩ := Clock.now_ofReadings d.reading (rest.map Deed.reading)
    rw [hc (List.cons_ne_nil d rest), List.map_cons] at h
    obtain ⟨hasked, hidle⟩ := foresees_asked hfirst.1 hfirst.2 h hi
    rw [Deed.add_of_enter hnext hnow] at hasked
    have hgo := ih hrest he (fun hne => hlater (by simpa using hne)) hasked hidle
    rw [retelling, List.flatMap_cons, run, List.foldl_append]
    exact hgo

/-- What the next step of the writer does with a chain in memory. A request that fails leaves it as it is, and its
ticket tells the fault. One that is taken at most resolves the tip, to what the store holds. Any other is stored. -/
structure StepsFrom (s t : Session Memory) : Prop where
  fails : ∀ n f, Fails Memory.store s.appender s.scene n f →
    t.appender.outcomes[n]? = some (.failed f) ∧ t.scene.world.entries = s.scene.world.entries ∧
      t.appender.tip = s.appender.tip ∧ t.appender.lastAt = s.appender.lastAt ∧ t.appender.admitted = none ∧
      t.appender.stopped = s.appender.stopped
  takes : ∀ n r rest, s.appender.admitted = none → s.appender.stopped = false →
    s.appender.queue = .request n r :: rest → s.appender.outcomes[n]? ≠ some .cancelled →
    (∀ f, ¬Fails Memory.store s.appender s.scene n f) →
    t.scene.world.entries = s.scene.world.entries ∧
      (∀ x, s.appender.tip = some x → t.appender.tip = some x ∧ t.appender.lastAt = s.appender.lastAt) ∧
      t.appender.tip = some (Chain.expectedAfter s.scene.world.entries.getLast?) ∧
      t.appender.lastAt = s.scene.world.entries.getLast?.map Entry.createdAt ∧
      ∃ p, t.appender.admitted = some p ∧ p.ticket = n ∧ p.request = r ∧
        p.previousHash = Chain.expectedAfter s.scene.world.entries.getLast?
  stores : ∀ p, s.appender.admitted = some p → (∀ f, ¬Fails Memory.store s.appender s.scene p.ticket f) →
    ∃ e, t.appender.outcomes[p.ticket]? = some (.stored e) ∧ t.scene.world.entries = s.scene.world.entries ++ [e]

private theorem ticket_lt_of_fails {Q : Request → Prop} {s : Session Memory} (h : Tidy Q s.appender) {n : Nat}
    {f : Fault} (hf : Fails Memory.store s.appender s.scene n f) : n < s.appender.outcomes.length := by
  have hadmitted : ∀ {p : Admitted}, s.appender.admitted = some p → p.ticket = n → n < s.appender.outcomes.length := by
    intro p hp hn
    have ht := h.tally
    rw [hp] at ht
    exact hn ▸ ht.running_lt_length
  cases hf with
  | tip ha hs hq => exact h.tally.lt_length (by rw [queued_cons hq]; exact List.mem_cons_self)
  | clock ha hn => exact hadmitted ha hn
  | stamp ha hn => exact hadmitted ha hn
  | hash ha hn => exact hadmitted ha hn
  | create ha hn => exact hadmitted ha hn

private theorem entries_of_work_fails {s : Session Memory} {n : Nat} {f : Fault}
    (hf : Fails Memory.store s.appender s.scene n f) :
    (work Memory.store false 1 s.appender s.scene).2.world.entries = s.scene.world.entries := by
  obtain ⟨p, b, clock, w, -, he, hw⟩ := work_of_fails hf
  rw [he, (samePlace_failAdmitted f p b _).2]
  rcases hw with rfl | hlast | ⟨d, hcreate⟩
  · rfl
  · have hkept := Memory.reading_entries (fun es => .ok es.getLast?) s.scene.world
    rwa [show Memory.reading (fun es => .ok es.getLast?) s.scene.world = (.error f, w) from hlast] at hkept
  · have hg : Memory.create d s.scene.world = (.error f, w) := hcreate
    have hkept := Memory.create_error (congrArg Prod.fst hg)
    rwa [hg] at hkept

private theorem stepsFrom_work {Q : Request → Prop} (hQ : ∀ r, Q r → r.eventType.display?.isSome = true)
    {s : Session Memory}
    (hs : Extends [] s) (h : Tidy Q s.appender) : StepsFrom s (step Memory.store Memory.strike (.work 1) s) where
  fails n f hf := by
    obtain ⟨p, b, clock, w, hheld, he, -⟩ := work_of_fails hf
    have hlt : n < b.outcomes.length := hheld.outcomes ▸ ticket_lt_of_fails h hf
    have hfail := failAdmitted_eq hQ (h.requests _ hheld.request) f b
      ({ s.scene with clock := clock, world := w } : Scene Memory)
    rw [hheld.ticket] at hfail
    have hentries := entries_of_work_fails hf
    rw [step]
    dsimp only
    rw [he] at hentries ⊢
    refine ⟨?_, hentries, ?_⟩
    · rw [hfail]
      exact List.getElem?_set_self hlt
    · rw [hfail]
      exact ⟨hheld.tip, hheld.lastAt, rfl, hheld.stopped⟩
  takes n r rest ha hstopped hq hc hn := by
    obtain ⟨hin, hrows⟩ := inStep_takeNext hs.1
    have hheld : ∃ p, (takeNext Memory.store s.appender s.scene).1.admitted = some p ∧ p.ticket = n ∧ p.request = r ∧
        ∀ x, s.appender.tip = some x → (takeNext Memory.store s.appender s.scene).1.lastAt = s.appender.lastAt := by
      cases ht : s.appender.tip with
      | some x =>
        rw [takeNext_of_tip hq hc ht]
        exact ⟨_, rfl, rfl, rfl, fun _ _ => rfl⟩
      | none =>
        rcases takeNext_of_no_tip hq hc ht s.scene with ⟨f, w, hf, -⟩ | ⟨last, w, -, he⟩
        · exact absurd (.tip ha hstopped hq hc ht (congrArg Prod.fst hf)) (hn f)
        · rw [he]
          exact ⟨_, rfl, rfl, rfl, fun _ hx => absurd hx (by simp)⟩
    obtain ⟨p, hp, hticket, hrequest, hkept⟩ := hheld
    -- The request follows the tip, and a known tip is the end of the chain.
    have htip := hin.admitted p hp
    obtain ⟨hend, hlast⟩ := hin.tip _ htip
    rw [hrows] at hend hlast
    rw [Chain.tip_genesis] at hend
    rw [step]
    dsimp only
    rw [work_one_of_request ha hstopped hq]
    refine ⟨hrows, ?_, hend ▸ htip, hlast, p, hp, hticket, hrequest, hend⟩
    intro x hx
    refine ⟨?_, hkept x hx⟩
    rw [htip, hend, (hs.1.tip x hx).1, Chain.tip_genesis]
  stores p hp hn := by
    obtain ⟨reading, hash, d, e, w, -, -, hcreate, hc⟩ := commit_of_not_fails hp hn
    have hg : Memory.create d s.scene.world = (.ok e, w) := hcreate
    obtain ⟨-, hrows⟩ := Memory.create_ok (congrArg Prod.fst hg)
    rw [hg] at hrows
    have ht := h.tally
    rw [hp] at ht
    rw [step]
    dsimp only
    rw [work_one_of_admitted hp, hc]
    exact ⟨e, List.getElem?_set_self ht.running_lt_length, hrows⟩

/-- A failed request leaves a chain in memory as it was, at whatever step it fails. However many requests fail in
whatever places of a run, its rows and its tip are those of every run that stores the same requests with the same
readings of its clock. There is one in which no other request is ever submitted, and a request that is at the writer of
the first run would be linked there to the same hash and, for the same reading, as the same entry. The event types of
the requests are texts, or at least have a text to be counted by. -/
theorem failures_leave_no_trace (ids : IdSource) (clock : Clock) (watch : Watch) (moves : List (Move (List Fault)))
    (hc : ∀ r, .submit r ∈ moves → r.eventType.display?.isSome = true) :
    let s := inMemory ids clock watch moves
    let ds := deeds Memory.store Memory.strike moves (fresh (Memory.empty ids) clock watch)
    StepsFrom s (step Memory.store Memory.strike (.work 1) s) ∧
      (∀ (ids' : IdSource) (clock' : Clock) (watch' : Watch) (moves' : List (Move (List Fault))),
        deeds Memory.store Memory.strike moves' (fresh (Memory.empty ids') clock' watch') = ds →
          SameChain s (inMemory ids' clock' watch' moves')) ∧
      ∀ (ids' : IdSource) (watch' : Watch),
        let t := inMemory ids' (.ofReadings (ds.map Deed.reading)) watch' (retelling ds)
        SameChain s t ∧ ∀ p, s.appender.admitted = some p →
          let t' := run Memory.store Memory.strike [.submit p.request, .work 1] t
          SameChain s t' ∧ ∃ q, t'.appender.admitted = some q ∧ q.request = p.request := by
  intro s ds
  let Q : Request → Prop := fun r => r.accepted = some r ∧ r.eventType.display?.isSome = true
  have hQ : ∀ r, Q r → r.eventType.display?.isSome = true := fun _ hr => hr.2
  have hallowed : ∀ r, .submit r ∈ moves → ∀ q, r.accepted = some q → Q q := fun r hr q hq =>
    ⟨Request.accepted_of_accepted hq, Request.eventType_of_accepted hq ▸ hc r hr⟩
  have hs : Extends [] s := extends_run moves (extends_fresh ids clock watch)
  have htidy : Tidy Q s.appender := (invariant_tidy hQ).run Memory.strike hallowed tidy_fresh
  have hrows : ds.foldlM Deed.enter [] = .ok (drafts s.scene) := rows_of_deeds moves (extends_fresh ids clock watch)
  have hds : ∀ d ∈ ds, Q d.request := request_of_deeds hQ Memory.strike hallowed tidy_fresh
  refine ⟨stepsFrom_work hQ hs htidy, ?_, ?_⟩
  · intro ids' clock' watch' moves' he
    have hrows' := rows_of_deeds moves' (extends_fresh ids' clock' watch')
    rw [he] at hrows'
    exact sameChain_of_rows hs (extends_run moves' (extends_fresh ids' clock' watch'))
      (Except.ok.inj (hrows.symm.trans hrows'))
  · intro ids' watch' t
    have ht : Extends [] t := extends_run _ (extends_fresh ids' _ watch')
    obtain ⟨⟨later, hforesees⟩, hidle⟩ := foresees_retelling hds hrows (fun _ => rfl)
      (foresees_fresh ids' (.ofReadings (ds.map Deed.reading)) watch') ⟨rfl, rfl⟩
    have hsame : drafts s.scene = drafts t.scene := (hforesees.rows_eq hidle).symm
    refine ⟨sameChain_of_rows hs ht hsame, ?_⟩
    intro p hp t'
    have hrequest : Q p.request := htidy.requests _ (by rw [awaited, hp]; exact List.mem_cons_self)
    obtain ⟨hkept, htaken⟩ := foresees_taken hrequest.1 hrequest.2 hforesees hidle
    exact ⟨sameChain_of_rows hs (extends_run _ ht) (hsame.trans hkept.symm), htaken⟩

/-- A request fails for want of a tip, one because its event type has no octets, and one is stored. A fourth is at the
writer when the clock fails: its ticket tells so and the row stays, and the run is that of the stored request alone. -/
theorem failures_leave_no_trace_of_three :
    let t : Instant := ⟨63900000000000000, some 0, by decide⟩
    let r : Request := ⟨.text (lit "login|ok"), .text (lit "auth"), .map [(.text (lit "n"), .int 1)], .null⟩
    let odd : Request := ⟨.text [⟨0xD800, by decide⟩], .text (lit "auth"), .map [], .null⟩
    let clock : Clock := .scripted (.ok t) [.ok t, .error .outOfRange]
    let moves : List (Move (List Fault)) := [.outage [.outage (lit "disk")], .submit r, .work 1, .submit odd, .work 2,
      .submit r, .work 2, .submit r, .work 1]
    let s := inMemory (.ofNumbers []) clock default moves
    let next := step Memory.store Memory.strike (.work 1) s
    let ds := deeds Memory.store Memory.strike moves (fresh (Memory.empty (.ofNumbers [])) clock default)
    s.scene.world.entries.length = 1 ∧ ds.length = 1 ∧ next.appender.outcomes[3]? = some (.failed .outOfRange) ∧
      next.scene.world.entries = s.scene.world.entries ∧ next.appender.tip = s.appender.tip ∧
      SameChain s (inMemory (.ofNumbers [7]) (.ofReadings (ds.map Deed.reading)) default (retelling ds)) := by
  intro t r odd clock moves s next ds
  have hc : ∀ q, .submit q ∈ moves → q.eventType.display?.isSome = true := by
    intro q hq
    simp only [moves, List.mem_cons, List.not_mem_nil, or_false, reduceCtorEq, Move.submit.injEq, false_or] at hq
    rcases hq with rfl | rfl | rfl | rfl <;> rfl
  have hd : s.scene.world.entries.length = 1 ∧ ds.length = 1 := by
    decide +kernel
  have hp : s.appender.admitted.map Admitted.ticket = some 3 := by
    decide +kernel
  obtain ⟨p, hp, hn⟩ := Option.map_eq_some_iff.mp hp
  have hnow : s.scene.clock.now.1 = .error .outOfRange := by
    have hread : (match s.scene.clock.now.1 with
        | .error (.platform .outOfRange) => true
        | _ => false) = true := by
      decide +kernel
    split at hread
    · assumption
    · exact absurd hread (by decide)
  obtain ⟨hstep, -, hretold⟩ := failures_leave_no_trace (.ofNumbers []) clock default moves hc
  obtain ⟨houtcome, hrows, htip, -⟩ := hstep.fails 3 .outOfRange (.clock hp hn hnow)
  exact ⟨hd.1, hd.2, houtcome, hrows, htip, (hretold (.ofNumbers [7]) default).1⟩

end Session

end AuditTrail
