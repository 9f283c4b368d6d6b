import AuditTrail.Proofs.Appender.Bookings
import AuditTrail.Proofs.Appender.RisingEntries

/-!
# The books balance

What an appender tells in three places agrees. However callers, withdrawals, outages and the writer are interleaved, the
counts of appends and of failures are those of the tickets that were stored and that have failed, for each event type, and
there is one notice for each ticket that has failed, in the order in which they failed. When nothing waits any more and
no ticket was withdrawn, the two counts add up to the calls that got a ticket (`Crew.books_balance`).
-/

namespace AuditTrail

open Appender

namespace Outcome

/-- The tickets that say that they have failed, and did not say so before. -/
def newlyFailed (before after : List Outcome) : List Nat :=
  (List.range after.length).filter fun n => after[n]?.any isFailed && !before[n]?.any isFailed

private theorem newlyFailed_self (os : List Outcome) : newlyFailed os os = [] :=
  List.filter_eq_nil_iff.mpr fun n _ => by simp

private theorem newlyFailed_eq {before after : List Outcome} {n : Nat} {o : Outcome} (hn : after[n]? = some o)
    (hb : before[n]?.any isFailed = false) (hothers : ∀ m, m ≠ n → after[m]? = before[m]?) :
    newlyFailed before after = if o.isFailed then [n] else [] := by
  have hsame : ∀ m ∈ List.range after.length, (after[m]?.any isFailed && !before[m]?.any isFailed) =
      (decide (m = n) && o.isFailed) := by
    intro m _
    by_cases hm : m = n
    · subst hm
      simp [hn, hb]
    · simp [hothers m hm, hm]
  rw [newlyFailed, List.filter_congr hsame]
  cases o.isFailed with
  | false => simp
  | true =>
    have hlt : n ∈ List.range after.length := List.mem_range.mpr (List.getElem?_eq_some_iff.mp hn).1
    simp only [Bool.and_true, if_true]
    rw [List.filter_eq, List.count_eq_one_of_mem List.nodup_range hlt]
    rfl

private theorem isFailed_eq_true_iff {o : Outcome} : o.isFailed = true ↔ ∃ f, o = .failed f := by
  cases o <;> simp [isFailed]

end Outcome

def Request.isOf (t : Text) (r : Request) : Bool := r.eventType.same (.text t)

private theorem Request.isOf_eq {r : Request} {s : Text} (hr : r.eventType = .text s) (t : Text) :
    r.isOf t = decide (label r = t) := by
  have hlabel : label r = s := by
    rw [label, hr]
    rfl
  rw [Bool.eq_iff_iff, isOf, Value.same_text_iff, decide_eq_true_iff, hr, hlabel, Value.text.injEq]

/-- The notice of a failure of a request of an event type. -/
def Notice.isFailureOf (t : Text) : Notice → Bool
  | writeFailed _ eventType _ => eventType.same (.text t)
  | chainBroken .. => false

/-- The figures, the entries that were stored and the futures tell the same, where `x` are the figures from before. -/
structure Accounts (x y : Figures) (stored : List Entry) (futures : List (Request × Outcome)) : Prop where
  appends : ∀ t, y.appends.total t = x.appends.total t + futures.countP fun f => f.1.isOf t && f.2.isStored
  failures : ∀ t, y.failures.total t = x.failures.total t + futures.countP fun f => f.1.isOf t && f.2.isFailed
  notices : ∃ new, y.notices = x.notices ++ new ∧ (futures.filterMap fun f => f.2.notice? f.1).Perm new
  stored : (futures.filterMap fun f => Outcome.entry? f.2).Perm stored
  requests : ∀ r e, (r, .stored e) ∈ futures → e.request = r

namespace Accounts

variable {x y : Figures} {stored : List Entry} {futures futures' : List (Request × Outcome)} {r : Request} {o : Outcome}

private theorem nil (x : Figures) : Accounts x x [] [] := by
  refine ⟨fun _ => rfl, fun _ => rfl, ⟨[], (List.append_nil _).symm, .nil⟩, .nil, ?_⟩
  exact fun _ _ hm => absurd hm List.not_mem_nil

private theorem perm (h : Accounts x y stored futures) (hp : futures.Perm futures') : Accounts x y stored futures' := by
  obtain ⟨new, hy, hn⟩ := h.notices
  refine ⟨?_, ?_, ⟨new, hy, (hp.filterMap _).symm.trans hn⟩, (hp.filterMap _).symm.trans h.stored, ?_⟩
  · exact fun t => hp.countP_eq _ ▸ h.appends t
  · exact fun t => hp.countP_eq _ ▸ h.failures t
  · exact fun r e hm => h.requests r e (hp.mem_iff.mpr hm)

private theorem add (h : Accounts x y stored futures) {t : Text} (hr : r.eventType = .text t)
    (he : ∀ e, o = .stored e → e.request = r) :
    Accounts x (y.book r o) (stored ++ o.entry?.toList) ((r, o) :: futures) := by
  obtain ⟨new, hy, hn⟩ := h.notices
  refine ⟨?_, ?_, ⟨new ++ (o.notice? r).toList, ?_, ?_⟩, ?_, ?_⟩
  · intro s
    rw [List.countP_cons, ← Nat.add_assoc, ← h.appends s, Request.isOf_eq hr, Figures.book]
    dsimp only
    cases o.isStored with
    | false => simp
    | true => simpa using Counts.total_increment s (label r) y.appends
  · intro s
    rw [List.countP_cons, ← Nat.add_assoc, ← h.failures s, Request.isOf_eq hr, Figures.book]
    dsimp only
    cases o.isFailed with
    | false => simp
    | true => simpa using Counts.total_increment s (label r) y.failures
  · rw [Figures.book, hy, List.append_assoc]
  · rw [List.filterMap_cons]
    cases o.notice? r with
    | none => simpa using hn
    | some n => exact (hn.cons n).trans (List.perm_append_singleton n new).symm
  · rw [List.filterMap_cons]
    cases o.entry? with
    | none => simpa using h.stored
    | some e => exact (h.stored.cons e).trans (List.perm_append_singleton e stored).symm
  · intro q e hm
    rcases List.mem_cons.mp hm with heq | hm
    · obtain ⟨rfl, rfl⟩ := Prod.mk.inj heq
      exact he e rfl
    · exact h.requests q e hm

private theorem drop (h : Accounts x y stored ((r, o) :: futures)) (hu : o.isDecided = false) :
    Accounts x y stored futures := by
  have hs : o.isStored = false ∧ o.isFailed = false ∧ o.entry? = none ∧ o.notice? r = none := by
    cases o with
    | pending | running => exact ⟨rfl, rfl, rfl, rfl⟩
    | _ => exact absurd hu (by simp [Outcome.isDecided])
  obtain ⟨hs, hf, he, hn⟩ := hs
  obtain ⟨appends, failures, notices, hstored, requests⟩ := h
  refine ⟨?_, ?_, ?_, ?_, fun q e hm => requests q e (List.mem_cons_of_mem _ hm)⟩
  · intro t
    rw [appends t, List.countP_cons_of_neg (by simp [hs])]
  · intro t
    rw [failures t, List.countP_cons_of_neg (by simp [hf])]
  · obtain ⟨new, hy, hp⟩ := notices
    refine ⟨new, hy, ?_⟩
    rwa [List.filterMap_cons_none (a := (r, o)) hn] at hp
  · rwa [List.filterMap_cons_none (a := (r, o)) he] at hstored

end Accounts

/-- The notice is that of a ticket that has failed: it has the text of its fault, and the event type and the source of its
request. -/
def Announced (calls : List (Nat × Request)) (outcomes : List Outcome) (n : Nat) (notice : Notice) : Prop :=
  ∃ r f, (n, r) ∈ calls ∧ outcomes[n]? = some (.failed f) ∧ notice = .writeFailed f.message r.eventType r.source

/-- The tickets that have failed in order, and the notices behind the old ones, one for each of them. -/
structure Heard (old : List Notice) (order : List Nat) (calls : List (Nat × Request)) (outcomes : List Outcome)
    (notices : List Notice) : Prop where
  distinct : order.Nodup
  failed : ∀ n, n ∈ order ↔ ∃ f, outcomes[n]? = some (.failed f)
  announced : ∃ new, notices = old ++ new ∧ List.Forall₂ (Announced calls outcomes) order new

private theorem Heard.book {old notices : List Notice} {order : List Nat} {calls calls' : List (Nat × Request)}
    {outcomes outcomes' : List Outcome} (h : Heard old order calls outcomes notices) {n : Nat} {r : Request} {o : Outcome}
    (hc : calls ⊆ calls') (hr : (n, r) ∈ calls') (hn : outcomes'[n]? = some o)
    (hb : outcomes[n]?.any Outcome.isFailed = false) (hothers : ∀ m, m ≠ n → outcomes'[m]? = outcomes[m]?) :
    Heard old (order ++ Outcome.newlyFailed outcomes outcomes') calls' outcomes' (notices ++ (o.notice? r).toList) := by
  have hne : ∀ m, (∃ f, outcomes[m]? = some (.failed f)) → m ≠ n := by
    rintro m ⟨f, hf⟩ rfl
    rw [hf] at hb
    exact absurd hb (by simp [Outcome.isFailed])
  have hnew : n ∉ order := fun hm => hne n ((h.failed n).mp hm) rfl
  have hkept : ∀ m, (∃ f, outcomes'[m]? = some (.failed f)) ↔ m ∈ order ∨ (m = n ∧ o.isFailed = true) := by
    intro m
    rw [h.failed m]
    by_cases hm : m = n
    · subst hm
      rw [hn, Outcome.isFailed_eq_true_iff]
      have hnone : ¬∃ f, outcomes[m]? = some (.failed f) := fun hf => hne m hf rfl
      simp [hnone]
    · simp [hothers m hm, hm]
  obtain ⟨new, hy, hall⟩ := h.announced
  have hold : List.Forall₂ (Announced calls' outcomes') order new := by
    refine hall.imp ?_
    rintro m notice ⟨q, f, hm, hf, rfl⟩
    exact ⟨q, f, hc hm, (hothers m (hne m ⟨f, hf⟩)).trans hf, rfl⟩
  rw [Outcome.newlyFailed_eq hn hb hothers]
  refine ⟨?_, ?_, new ++ (o.notice? r).toList, ?_, ?_⟩
  · split
    · exact List.nodup_append.mpr ⟨h.distinct, List.nodup_singleton n, fun m hm k hk he => hnew (by
        rw [← List.mem_singleton.mp hk, ← he]
        exact hm)⟩
    · rw [List.append_nil]
      exact h.distinct
  · intro m
    rw [hkept m, List.mem_append]
    split
    · simp [*]
    · simp [*]
  · rw [hy, List.append_assoc]
  · refine List.rel_append hold ?_
    cases o with
    | failed f => exact .cons ⟨r, f, hr, hn, rfl⟩ .nil
    | _ => exact .nil

/-- Each ticket was given to one call, and the figures, the stored entries and the notices are those of the tickets, where
`x` are the figures from before. -/
structure Accounted {W : Type} (x : Figures) (order : List Nat) (d : Desk W) (calls : List (Nat × Request)) : Prop where
  attentive : d.scene.watch.figures.IsAttentive
  tickets : (calls.map Prod.fst).Perm (List.range d.appender.outcomes.length)
  typed : ∀ n r, (n, r) ∈ calls → r.eventType.isText = true
  queued : ∀ n r, .queued n r ∈ d.journal → (n, r) ∈ calls
  accounts : Accounts x d.scene.watch.figures d.journal.stored (futuresOf calls d.appender.outcomes)
  heard : Heard x.notices order calls d.appender.outcomes d.scene.watch.figures.notices

namespace Accounted

variable {W : Type} {x : Figures} {order : List Nat} {d d' : Desk W} {calls calls' : List (Nat × Request)}

private theorem lt_length (h : Accounted x order d calls) {n : Nat} {r : Request} (hc : (n, r) ∈ calls) :
    n < d.appender.outcomes.length :=
  List.mem_range.mp (h.tickets.mem_iff.mp (List.mem_map_of_mem hc))

private theorem book (h : Accounted x order d calls)
    (hb : Booked (fun r => r.eventType.isText = true) d calls d' calls') :
    Accounted x (order ++ Outcome.newlyFailed d.appender.outcomes d'.appender.outcomes) d' calls' := by
  cases hb with
  | nothing ho hf hs hj =>
    rw [ho, Outcome.newlyFailed_self, List.append_nil]
    refine ⟨hf ▸ h.attentive, ho ▸ h.tickets, h.typed, fun n r hm => h.queued n r (hj n r hm), ?_, ?_⟩
    · rw [ho, hf, hs]
      exact h.accounts
    · rw [ho, hf]
      exact h.heard
  | @issued r o calls' hr hn ho hf hs hj hc =>
    have hlt : ∀ call ∈ calls, call.1 < d.appender.outcomes.length := fun call hm => h.lt_length hm
    have hnone : d.appender.outcomes[d.appender.outcomes.length]? = none := List.getElem?_eq_none (Nat.le_refl _)
    have hfutures : (futuresOf calls' d'.appender.outcomes).Perm ((r, o) :: futuresOf calls d.appender.outcomes) := by
      rw [ho, ← futuresOf_concat hlt]
      exact hc.filterMap _
    obtain ⟨t, ht⟩ := Value.exists_of_isText hr
    have hbooked := h.accounts.add (o := o) ht fun e he => absurd hn (by rw [he]; simp [Outcome.isStored])
    have hentry : o.entry? = none := by
      cases o with
      | stored e => exact absurd hn (by simp [Outcome.isStored])
      | _ => rfl
    rw [hentry, Option.toList_none, List.append_nil] at hbooked
    refine ⟨hf ▸ h.attentive.book, ?_, ?_, ?_, ?_, ?_⟩
    · rw [ho, List.length_append, List.length_singleton, List.range_succ]
      refine (hc.map Prod.fst).trans ((h.tickets.cons _).trans ?_)
      exact (List.perm_append_singleton _ _).symm
    · intro n q hm
      rcases List.mem_cons.mp (hc.mem_iff.mp hm) with heq | hm
      · obtain ⟨-, rfl⟩ := Prod.mk.inj heq
        exact hr
      · exact h.typed n q hm
    · intro n q hm
      refine hc.mem_iff.mpr ?_
      rcases hj n q hm with hm | heq
      · exact List.mem_cons_of_mem _ (h.queued n q hm)
      · exact heq ▸ List.mem_cons_self
    · rw [hf, hs]
      exact hbooked.perm hfutures.symm
    · rw [hf]
      refine h.heard.book (fun call hm => hc.mem_iff.mpr (List.mem_cons_of_mem _ hm)) (hc.mem_iff.mpr List.mem_cons_self)
        (ho ▸ List.getElem?_concat_length) (by rw [hnone]; rfl) ?_
      intro m hm
      rw [ho, getElem?_concat_eq, if_neg hm]
  | @settled n r old o hq hold hu he ho hf hs hj =>
    have hcall := h.queued n r hq
    have hlt := (List.getElem?_eq_some_iff.mp hold).1
    obtain ⟨t, ht⟩ := Value.exists_of_isText (h.typed n r hcall)
    obtain ⟨rest, hbefore, hafter⟩ := futuresOf_set (h.tickets.nodup_iff.mpr List.nodup_range) hcall hold o
    have hnotfailed : d.appender.outcomes[n]?.any Outcome.isFailed = false := by
      rw [hold]
      cases old with
      | failed f => exact absurd hu (by simp [Outcome.isDecided])
      | _ => rfl
    refine ⟨hf ▸ h.attentive.book, ?_, h.typed, fun m q hm => h.queued m q (hj m q hm), ?_, ?_⟩
    · rw [ho, List.length_set]
      exact h.tickets
    · rw [hf, hs, ho]
      exact (((h.accounts.perm hbefore).drop hu).add ht he).perm hafter.symm
    · rw [hf]
      refine h.heard.book (List.Subset.refl _) hcall (ho ▸ List.getElem?_set_self hlt) hnotfailed ?_
      intro m hm
      rw [ho, List.getElem?_set_ne (Ne.symm hm)]

end Accounted

namespace Crew

variable {W S : Type}

/-- The requests of the calls that were given a ticket, each with what its ticket says. -/
def futures (c : Crew W) : List (Request × Outcome) := futuresOf c.calls c.desk.appender.outcomes

/-- The tickets that failed in a run, in the order in which they failed. -/
def failureOrder (store : Store W) (strike : S → W → W) (limit : Option Nat) : List (Act S) → Crew W → List Nat
  | [], _ => []
  | a :: rest, c =>
    let after := step store strike limit a c
    Outcome.newlyFailed c.desk.appender.outcomes after.desk.appender.outcomes ++
      failureOrder store strike limit rest after

/-- The futures for an event type that resolved to an entry. -/
def resolved (t : Text) (c : Crew W) : Nat := c.futures.countP fun f => f.1.isOf t && f.2.isStored

/-- The futures for an event type that raise. -/
def raised (t : Text) (c : Crew W) : Nat := c.futures.countP fun f => f.1.isOf t && f.2.isFailed

/-- The calls to append for an event type that were given a ticket. -/
def returned (t : Text) (c : Crew W) : Nat := c.calls.countP fun call => call.2.isOf t

/-- Nobody is in the middle of a call, and no request waits, is in the writer's hand or runs. -/
structure IsDrained (c : Crew W) : Prop where
  holder : c.holder = none
  queue : c.desk.appender.queued = []
  hand : c.desk.hand = none
  admitted : c.desk.appender.admitted = none

section Run

variable {store : Store W} {strike : S → W → W} {limit : Option Nat} {x : Figures} {order : List Nat}

private theorem accounted_fresh (w : W) (clock : Clock) {watch : Watch} (h : watch.figures.IsAttentive) :
    Accounted watch.figures [] (fresh w clock watch).desk (fresh w clock watch).calls := by
  refine ⟨h, .refl _, ?_, ?_, .nil _, ⟨.nil, ?_, [], (List.append_nil _).symm, .nil⟩⟩
  · exact fun _ _ hm => absurd hm List.not_mem_nil
  · exact fun _ _ hm => absurd hm List.not_mem_nil
  · intro n
    simp [fresh, Desk.fresh, Appender.fresh]

/-- What one act keeps accounted, every run keeps accounted. -/
private theorem accounted_run (hid : ∀ dr w e w', store.create dr w = (.ok e, w') → ∃ id, e = dr.withId id)
    {acts : List (Act S)} (hl : ∀ r, .call (.append r) ∈ acts → r.eventType.isText = true) {c : Crew W}
    (hs : Safe (fun r => r.eventType.isText = true) Desk.Faithful c) (h : Accounted x order c.desk c.calls) :
    let c' := run store strike limit acts c
    Accounted x (order ++ failureOrder store strike limit acts c) c'.desk c'.calls := by
  induction acts generalizing c order with
  | nil => exact (List.append_nil order).symm ▸ h
  | cons a rest ih =>
    have hQ : ∀ r : Request, r.eventType.isText = true → r.eventType.display?.isSome = true := fun _ hr =>
      Value.isSome_display?_of_isText hr
    have ha : ∀ r, a = .call (.append r) → r.eventType.isText = true := fun r he => hl r (he ▸ List.mem_cons_self)
    have hbooked : Booked (fun r => r.eventType.isText = true) c.desk c.calls (step store strike limit a c).desk
        (step store strike limit a c).calls :=
      booked_step hQ hid hs h.attentive ha
    have hsafe : Safe (fun r => r.eventType.isText = true) Desk.Faithful (step store strike limit a c) :=
      safe_step hQ (Desk.Faithful.invariant hQ hid) hs fun r he q hq => Request.eventType_of_accepted hq ▸ ha r he
    have hrest := ih (fun r hr => hl r (List.mem_cons_of_mem a hr)) hsafe (h.book hbooked)
    rw [List.append_assoc] at hrest
    exact hrest

end Run

private theorem countP_futures {x : Figures} {order : List Nat} {c : Crew W} (h : Accounted x order c.desk c.calls)
    (t : Text) :
    c.futures.countP (fun f => f.1.isOf t) = c.returned t := by
  rw [futures, futuresOf, List.countP_filterMap, returned]
  refine List.countP_congr fun call hc => ?_
  have hlt : call.1 < c.desk.appender.outcomes.length := h.lt_length hc
  rw [List.getElem?_eq_getElem hlt]
  rfl

/-- When nothing waits any more and no ticket was withdrawn, every ticket was stored or has failed. -/
private theorem resolved_add_raised {x : Figures} {order : List Nat} {c : Crew W} {Q : Request → Prop}
    (hs : c.desk.Sound Q)
    (h : Accounted x order c.desk c.calls) (hd : c.IsDrained) (hkept : ∀ o ∈ c.desk.appender.outcomes, o ≠ .cancelled)
    (t : Text) : c.resolved t + c.raised t = c.returned t := by
  have tally := hs.tidy.tally
  rw [Desk.whole_of_hand hd.hand, hd.queue, hd.admitted] at tally
  have hfate : ∀ o ∈ c.desk.appender.outcomes, o.isFailed = !o.isStored := by
    intro o ho
    obtain ⟨n, hn⟩ := List.mem_iff_getElem?.mp ho
    cases o with
    | pending => exact absurd (tally.pending n hn) List.not_mem_nil
    | running => exact absurd ((tally.running n).mp hn) (by simp)
    | cancelled => exact absurd rfl (hkept _ ho)
    | _ => rfl
  have hraised : c.raised t = c.futures.countP fun f => f.1.isOf t && !f.2.isStored := by
    refine List.countP_congr fun f hf => ?_
    obtain ⟨r, o⟩ := f
    obtain ⟨n, -, hn⟩ := mem_futuresOf.mp hf
    rw [hfate o (List.mem_of_getElem? hn)]
  rw [← countP_futures h t, List.countP_eq_countP_filter_add c.futures (fun f => f.1.isOf t) fun f => f.2.isStored,
    List.countP_filter, List.countP_filter, resolved, hraised]

/-- What an appender on a store in memory tells about its requests agrees, where `rows` and `watch` are the entries and the
watch from before, and the tickets failed in an order. -/
structure Balanced (rows : List Entry) (watch : Watch) (order : List Nat) (c : Crew Site) : Prop where
  /-- Each ticket was given to one call. -/
  tickets : (c.calls.map Prod.fst).Perm (List.range c.desk.appender.outcomes.length)
  /-- Behind the rows there is an entry for each future that resolved, no two of them are alike, and they are counted. -/
  stored : ∃ new, c.desk.scene.world.memory.entries = rows ++ new ∧ new.Nodup ∧
    (c.futures.filterMap fun f => Outcome.entry? f.2).Perm new ∧ ∀ t,
      c.desk.scene.watch.metrics.appends.total t =
        watch.metrics.appends.total t + new.countP (fun e => e.eventType.same (.text t)) ∧
      new.countP (fun e => e.eventType.same (.text t)) = c.resolved t
  /-- The entry of a future is that of its request. -/
  requests : ∀ r e, (r, .stored e) ∈ c.futures → e.request = r
  /-- Behind the notices there is one for each ticket that has failed, in that order, and they are counted. -/
  failed : ∃ new, c.desk.scene.watch.notices = watch.notices ++ new ∧
    List.Forall₂ (Announced c.calls c.desk.appender.outcomes) order new ∧ ∀ t,
      c.desk.scene.watch.metrics.failures.total t =
        watch.metrics.failures.total t + new.countP (Notice.isFailureOf t) ∧
      new.countP (Notice.isFailureOf t) = c.raised t
  distinct : order.Nodup
  order : ∀ n, n ∈ order ↔ ∃ f, c.desk.appender.outcomes[n]? = some (.failed f)

private theorem balanced_of_accounted {rows : List Entry} {watch : Watch} {order : List Nat} {c : Crew Site}
    (h : Accounted watch.figures order c.desk c.calls)
    (hrows : c.desk.scene.world.memory.entries = rows ++ c.desk.journal.stored) (hd : c.desk.journal.stored.Nodup) :
    Balanced rows watch order c := by
  have hresolved : ∀ t, c.desk.journal.stored.countP (fun e => e.eventType.same (.text t)) = c.resolved t := by
    intro t
    rw [← h.accounts.stored.countP_eq, List.countP_filterMap]
    refine List.countP_congr fun f hf => ?_
    obtain ⟨r, o⟩ := f
    cases o with
    | stored e =>
      rw [← h.accounts.requests r e hf]
      simp [Outcome.entry?, Outcome.isStored, Request.isOf, Entry.request]
    | _ => simp [Outcome.entry?, Outcome.isStored]
  obtain ⟨new, hnew, hall⟩ := h.heard.announced
  have hraised : ∀ t, new.countP (Notice.isFailureOf t) = c.raised t := by
    intro t
    obtain ⟨new', hnew', hperm⟩ := h.accounts.notices
    obtain rfl : new' = new := List.append_cancel_left (hnew'.symm.trans hnew)
    rw [← hperm.countP_eq, List.countP_filterMap]
    refine List.countP_congr fun f _ => ?_
    obtain ⟨r, o⟩ := f
    cases o <;> simp [Outcome.notice?, Outcome.isFailed, Notice.isFailureOf, Request.isOf]
  refine ⟨h.tickets, ⟨_, hrows, hd, h.accounts.stored, fun t => ⟨?_, hresolved t⟩⟩, h.accounts.requests,
    ⟨new, hnew, hall, fun t => ⟨?_, hraised t⟩⟩, h.heard.distinct, h.heard.failed⟩
  · rw [hresolved t]
    exact h.accounts.appends t
  · rw [hraised t]
    exact h.accounts.failures t

private theorem gone_of_drained {Q : Request → Prop} {P : Desk W → Prop} {c : Crew W} (hs : Safe Q P c)
    (hd : c.IsDrained)
    {n : Nat} {r : Request} (hc : (n, r) ∈ c.calls) : .gone (.append r) (.ok (some n)) ∈ c.callers := by
  obtain ⟨st, hst, he⟩ := List.mem_filterMap.mp hc
  obtain ⟨i, hi⟩ := List.mem_iff_getElem?.mp hst
  have hanswer : ∀ e answer, Errand.call? e answer = some (n, r) → e = .append r ∧ answer = .ok (some n) := by
    intro e answer ha
    cases e with
    | append q =>
      cases answer with
      | error f => exact absurd ha (by simp [Errand.call?])
      | ok ticket =>
        cases ticket with
        | none => exact absurd ha (by simp [Errand.call?])
        | some m =>
          obtain ⟨rfl, rfl⟩ := Prod.mk.inj (Option.some.inj ha)
          exact ⟨rfl, rfl⟩
    | _ => exact absurd ha (by simp [Errand.call?])
  cases st with
  | gone e answer =>
    obtain ⟨rfl, rfl⟩ := hanswer e answer he
    exact hst
  | leaving e answer => exact absurd (hd.holder.symm.trans (hs.lock i _ hi rfl)) (by simp)
  | _ => exact absurd he (by simp [Stage.call?])

/-- The books balance. However the stages of any number of callers, withdrawals, outages and the steps of the writer are
interleaved, on a store in memory, with metrics that are set up and an emitter that records every notice, what is counted,
what is recorded, what is stored and what the tickets say agree for each event type. When nothing waits any more and no
ticket was withdrawn, what was stored and what has failed adds up to the calls that returned a ticket. -/
theorem books_balance (strike : S → Site → Site) (hs : ∀ o s, (strike o s).memory.entries = s.memory.entries)
    (site : Site) (clock : Clock) (watch : Watch) (hw : watch.metrics.running = true) (he : watch.emitter.Records)
    (limit : Option Nat) (acts : List (Act S)) (hl : ∀ r, .call (.append r) ∈ acts → r.eventType.isText = true) :
    let before := fresh site clock watch
    let c := run Handle.memory.store strike limit acts before
    Balanced site.memory.entries watch (failureOrder Handle.memory.store strike limit acts before) c ∧
      (c.IsDrained → (∀ o ∈ c.desk.appender.outcomes, o ≠ .cancelled) →
        (∀ n r, (n, r) ∈ c.calls → .gone (.append r) (.ok (some n)) ∈ c.callers) ∧
          ∀ t, c.resolved t + c.raised t = c.returned t) := by
  intro before c
  let Q : Request → Prop := fun r => r.eventType.isText = true
  have hQ : ∀ r, Q r → r.eventType.display?.isSome = true := fun _ hr => Value.isSome_display?_of_isText hr
  have hallowed : ∀ r, .call (.append r) ∈ acts → ∀ q, r.accepted = some q → Q q := fun r hr q hq =>
    (Request.eventType_of_accepted hq ▸ hl r hr : q.eventType.isText = true)
  have hid : ∀ dr w e w', Handle.memory.store.create dr w = (.ok e, w') → ∃ id, e = dr.withId id := fun _ _ _ _ hc =>
    Handle.memory.exists_id_of_create hc
  have hfresh : Safe Q Desk.Faithful before := .fresh site clock watch (.fresh site clock watch)
  have hfaithful : Safe Q Desk.Faithful c := safe_run hQ (Desk.Faithful.invariant hQ hid) hfresh hallowed
  have hrising := Desk.Rising.invariant hQ (Handle.backs_memory hs site.memory.entries) hid
  have hrows : Safe Q _ c := safe_run hQ hrising
    (.fresh site clock watch ⟨.fresh (List.append_nil _).symm clock watch, .of_nil rfl⟩) hallowed
  have haccounted : Accounted watch.figures ([] ++ failureOrder Handle.memory.store strike limit acts before) c.desk
      c.calls :=
    accounted_run hid hl hfresh (accounted_fresh site clock ⟨hw, he⟩)
  refine ⟨balanced_of_accounted haccounted hrows.kept.1.rows hrows.kept.2.nodup, fun hd hkept => ⟨?_, ?_⟩⟩
  · exact fun n r hc => gone_of_drained hfaithful hd hc
  · exact resolved_add_raised hfaithful.sound haccounted hd hkept

/-- Two callers append and a third one has details without a canonical text, so that its ticket fails at once, before the
others get theirs. The store fails when the last request is to be created. -/
theorem books_balance_of_three :
    let t : Instant := ⟨63900000000000000, some 0, by decide⟩
    let login : Text := lit "login|ok"
    let r : Request := ⟨.text login, .text (lit "auth"), .map [(.text (lit "n"), .int 1)], .null⟩
    let strike : List Fault → Site → Site := fun faults s => { s with memory := Memory.strike faults s.memory }
    let watch : Watch := { Watch.ofEmitter (.ofListeners [.failing, .archive]) false with
      metrics := { Metrics.off with running := true } }
    let acts : List (Act (List Fault)) := [.call (.append r), .call (.append { r with details := .object (lit "set") }),
      .call (.append r)] ++ List.replicate 6 (.advance 0) ++ List.replicate 6 (.advance 2) ++
      [.take, .look, .commit, .take, .look, .outage [.outage (lit "disk")], .commit]
    let before : Crew Site := fresh default (.scripted (.ok t) []) watch
    let c := run Handle.memory.store strike none acts before
    c.IsDrained ∧ failureOrder Handle.memory.store strike none acts before = [0, 2] ∧
      c.desk.scene.watch.notices.length = 2 ∧ c.desk.scene.watch.metrics.failures.total login = 2 ∧
      c.desk.scene.watch.metrics.appends.total login = 1 ∧ c.desk.scene.world.memory.entries.length = 1 ∧
      c.returned login = 3 := by
  intro t login r strike watch acts before
  have hl : ∀ q, .call (.append q) ∈ acts → q.eventType.isText = true := by
    intro q hq
    obtain rfl | rfl : q = r ∨ q = { r with details := .object (lit "set") } := by simpa [acts, or_comm] using hq
    · rfl
    · rfl
  have hrecords : watch.emitter.Records := Emitter.records_ofListeners fun _ => rfl
  have hd : let c := run Handle.memory.store strike none acts before
      (c.holder = none ∧ c.desk.appender.queued = [] ∧ c.desk.hand.isNone = true ∧ c.desk.appender.admitted.isNone = true) ∧
        (c.desk.appender.outcomes.all fun o => o.isStored || o.isFailed) = true ∧
        failureOrder Handle.memory.store strike none acts before = [0, 2] ∧
        c.resolved login = 1 ∧ c.raised login = 2 ∧
        (c.futures.filterMap fun f => Outcome.entry? f.2).length = 1 := by
    decide +kernel
  have hmain := books_balance strike (fun _ _ => rfl) default (.scripted (.ok t) []) watch rfl hrecords none acts hl
  change let c := run Handle.memory.store strike none acts before; Balanced [] watch _ c ∧ _ at hmain
  generalize run Handle.memory.store strike none acts before = c at hd hmain ⊢
  obtain ⟨⟨hholder, hqueue, hhand, hadmitted⟩, hfates, horder, hresolved, hraised, hone⟩ := hd
  obtain ⟨hbalanced, hsum⟩ := hmain
  have hdrained : c.IsDrained :=
    ⟨hholder, hqueue, Option.isNone_iff_eq_none.mp hhand, Option.isNone_iff_eq_none.mp hadmitted⟩
  have hkept : ∀ o ∈ c.desk.appender.outcomes, o ≠ .cancelled := by
    rintro _ ho rfl
    exact absurd (List.all_eq_true.mp hfates _ ho) (by simp [Outcome.isStored, Outcome.isFailed])
  obtain ⟨new, hrows, -, hperm, hcounted⟩ := hbalanced.stored
  obtain ⟨heard, hnotices, hall, hfailed⟩ := hbalanced.failed
  refine ⟨hdrained, horder, ?_, ?_, ?_, ?_, ?_⟩
  · rw [hnotices, List.length_append, ← hall.length_eq]
    exact (Nat.zero_add _).trans (congrArg List.length horder)
  · rw [(hfailed login).1, (hfailed login).2, hraised]
    rfl
  · rw [(hcounted login).1, (hcounted login).2, hresolved]
    rfl
  · rw [hrows, List.length_append, ← hperm.length_eq, hone]
    rfl
  · rw [← (hsum hdrained hkept).2 login, hresolved, hraised]

end Crew

end AuditTrail
