import AuditTrail.Proofs.Appender.Errands
import AuditTrail.Proofs.Appender.Figures
import AuditTrail.Proofs.Appender.Provenance

/-!
# What an act books

A call to append gets a ticket, and the ticket is what its caller asks for the outcome of its request. An act books one
ticket at most: it issues a new one, with the outcome that it has from the beginning, or it changes the outcome of one
that was not decided yet. The figures of the watch and the stored entries change by that outcome and by nothing else
(`Crew.booked_step`).
-/

namespace AuditTrail

open Appender

def Errand.call? : Errand → Except Fault (Option Nat) → Option (Nat × Request)
  | append r, .ok (some n) => some (n, r)
  | _, _ => none

/-- The ticket that a call to append was given, which it returns when it lets go of the lock, and its request. -/
def Stage.call? : Stage → Option (Nat × Request)
  | leaving e answer | gone e answer => e.call? answer
  | _ => none

/-- The requests of the calls that were given a ticket, each with what its ticket says. -/
def futuresOf (calls : List (Nat × Request)) (outcomes : List Outcome) : List (Request × Outcome) :=
  calls.filterMap fun call => outcomes[call.1]?.map (call.2, ·)

section Futures

variable {calls : List (Nat × Request)} {outcomes outcomes' : List Outcome} {n : Nat} {r : Request} {o : Outcome}

theorem mem_futuresOf : (r, o) ∈ futuresOf calls outcomes ↔ ∃ n, (n, r) ∈ calls ∧ outcomes[n]? = some o := by
  simp only [futuresOf, List.mem_filterMap, Option.map_eq_some_iff, Prod.mk.injEq, Prod.exists]
  constructor
  · rintro ⟨n, r', hm, o', ho, rfl, rfl⟩
    exact ⟨n, hm, ho⟩
  · rintro ⟨n, hm, ho⟩
    exact ⟨n, r, hm, o, ho, rfl, rfl⟩

private theorem futuresOf_cons (ho : outcomes[n]? = some o) :
    futuresOf ((n, r) :: calls) outcomes = (r, o) :: futuresOf calls outcomes :=
  List.filterMap_cons_some (by rw [ho]; rfl)

private theorem futuresOf_congr (h : ∀ call ∈ calls, outcomes'[call.1]? = outcomes[call.1]?) :
    futuresOf calls outcomes' = futuresOf calls outcomes :=
  List.filterMap_congr fun call hc => by rw [h call hc]

theorem futuresOf_concat (h : ∀ call ∈ calls, call.1 < outcomes.length) :
    futuresOf ((outcomes.length, r) :: calls) (outcomes ++ [o]) = (r, o) :: futuresOf calls outcomes := by
  rw [futuresOf_cons List.getElem?_concat_length]
  exact congrArg ((r, o) :: ·) (futuresOf_congr fun call hc => List.getElem?_append_left (h call hc))

theorem futuresOf_set (hd : (calls.map Prod.fst).Nodup) (hc : (n, r) ∈ calls) {old : Outcome}
    (hold : outcomes[n]? = some old) (o : Outcome) :
    ∃ rest, (futuresOf calls outcomes).Perm ((r, old) :: rest) ∧
      (futuresOf calls (outcomes.set n o)).Perm ((r, o) :: rest) := by
  obtain ⟨front, back, rfl⟩ := List.append_of_mem hc
  have hperm : (front ++ (n, r) :: back).Perm ((n, r) :: (front ++ back)) := List.perm_middle
  have hothers : ∀ call ∈ front ++ back, (outcomes.set n o)[call.1]? = outcomes[call.1]? := by
    intro call hm
    have hn := (List.nodup_cons.mp ((hperm.map Prod.fst).nodup_iff.mp hd)).1
    exact List.getElem?_set_ne fun he => hn (List.mem_map.mpr ⟨call, hm, he.symm⟩)
  have hset : (outcomes.set n o)[n]? = some o := List.getElem?_set_self (List.getElem?_eq_some_iff.mp hold).1
  refine ⟨futuresOf (front ++ back) outcomes, ?_, ?_⟩
  · rw [← futuresOf_cons hold]
    exact hperm.filterMap _
  · rw [← futuresOf_congr hothers, ← futuresOf_cons hset]
    exact hperm.filterMap _

end Futures

/-- What an act at a desk books, where `calls` are the calls that were given a ticket. -/
inductive Booked {W : Type} (Q : Request → Prop) (d : Desk W) (calls : List (Nat × Request)) (d' : Desk W) :
    List (Nat × Request) → Prop
  | nothing (ho : d'.appender.outcomes = d.appender.outcomes)
      (hf : d'.scene.watch.figures = d.scene.watch.figures) (hs : d'.journal.stored = d.journal.stored)
      (hj : ∀ n r, .queued n r ∈ d'.journal → .queued n r ∈ d.journal) : Booked Q d calls d' calls
  /-- A request gets a ticket and waits, or it has failed. -/
  | issued {r : Request} {o : Outcome} {calls' : List (Nat × Request)} (hr : Q r) (hn : o.isStored = false)
      (ho : d'.appender.outcomes = d.appender.outcomes ++ [o])
      (hf : d'.scene.watch.figures = d.scene.watch.figures.book r o) (hs : d'.journal.stored = d.journal.stored)
      (hj : ∀ n q, .queued n q ∈ d'.journal → .queued n q ∈ d.journal ∨ (n, q) = (d.appender.outcomes.length, r))
      (hc : calls'.Perm ((d.appender.outcomes.length, r) :: calls)) : Booked Q d calls d' calls'
  /-- A ticket of a queued request that was not decided says something else. -/
  | settled {n : Nat} {r : Request} {old o : Outcome} (hq : .queued n r ∈ d.journal)
      (hold : d.appender.outcomes[n]? = some old) (hu : old.isDecided = false)
      (he : ∀ e, o = .stored e → e.request = r) (ho : d'.appender.outcomes = d.appender.outcomes.set n o)
      (hf : d'.scene.watch.figures = d.scene.watch.figures.book r o)
      (hs : d'.journal.stored = d.journal.stored ++ o.entry?.toList)
      (hj : ∀ n r, .queued n r ∈ d'.journal → .queued n r ∈ d.journal) : Booked Q d calls d' calls

namespace Booked

variable {W : Type} {Q : Request → Prop} {d d' : Desk W} {calls : List (Nat × Request)}

private theorem refl (d : Desk W) (calls : List (Nat × Request)) : Booked Q d calls d calls :=
  .nothing rfl rfl rfl fun _ _ hj => hj

private theorem note {e : Event} (ho : d'.appender.outcomes = d.appender.outcomes)
    (hf : d'.scene.watch.figures = d.scene.watch.figures) (hj : d'.journal = d.journal ++ [e]) (he : e.entry? = none)
    (hq : e.queued? = none) : Booked Q d calls d' calls := by
  refine .nothing ho hf ?_ fun n r hm => ?_
  · rw [hj, Journal.stored_concat, he]
    exact List.append_nil _
  · rw [hj] at hm
    refine (List.mem_append.mp hm).resolve_right fun hn => ?_
    rw [← List.mem_singleton.mp hn] at hq
    exact absurd hq (by simp [Event.queued?])

end Booked

namespace Desk

variable {W : Type} {store : Store W} {Q : Request → Prop} {d : Desk W} {calls : List (Nat × Request)}

private theorem queued_of_pending (hs : Sound Q d) (h : Faithful d) {n : Nat}
    (hn : d.appender.outcomes[n]? = some .pending) :
    ∃ r, .queued n r ∈ d.journal := by
  obtain ⟨item, hm, ht⟩ := List.mem_filterMap.mp (hs.tidy.tally.pending n hn)
  cases item with
  | stop => exact absurd ht (by simp [Item.ticket?])
  | request m r =>
    obtain rfl := Option.some.inj ht
    refine ⟨r, ?_⟩
    rcases List.mem_append.mp hm with hheld | hq
    · obtain ⟨⟨m', r'⟩, hh, he⟩ := List.mem_map.mp (by rwa [held, Option.toList_map] at hheld)
      obtain ⟨rfl, rfl⟩ := Item.request.inj he
      exact h.hand _ _ (Option.mem_toList.mp hh)
    · exact h.waiting _ _ hq

private theorem booked_cancel (hs : Sound Q d) (h : Faithful d) (n : Nat) : Booked Q d calls (d.cancel n) calls := by
  rw [Desk.cancel, Appender.cancel]
  split
  · rename_i hn
    obtain ⟨r, hq⟩ := queued_of_pending hs h hn
    refine .settled hq hn rfl (fun _ he => absurd he (by simp)) rfl ?_ (List.append_nil _).symm fun _ _ hj => hj
    exact (Figures.book_of_unsettled rfl rfl).symm
  · exact .refl d calls
  · exact .refl d calls

private theorem booked_take (d : Desk W) : Booked Q d calls d.take calls := by
  have htaken := d.taken_take
  generalize d.take = d' at htaken ⊢
  cases htaken with
  | nothing _ => exact .refl d calls
  | stop _ _ => exact .nothing rfl rfl rfl fun _ _ hj => hj
  | request _ _ => exact .note rfl rfl rfl rfl rfl

private theorem booked_hire (d : Desk W) : Booked Q d calls d.hire calls := .note rfl rfl rfl rfl rfl

private theorem booked_shut (d : Desk W) : Booked Q d calls d.shut calls := .note rfl rfl rfl rfl rfl

private theorem booked_launch (store : Store W) (d : Desk W) : Booked Q d calls (d.launch store).2 calls := by
  have hlaunched := launched_launch store d
  generalize (d.launch store).2 = d' at hlaunched ⊢
  cases hlaunched with
  | nothing => exact .refl d calls
  | unanswered _ _ hv | answered _ _ hv =>
    obtain ⟨line, hv⟩ := hv
    refine .note rfl ?_ rfl rfl rfl
    rw [hv, figures_add]

section Writer

variable (hQ : ∀ r, Q r → r.eventType.display?.isSome = true) (hs : Sound Q d) (h : Faithful d)
  (hx : d.scene.watch.figures.IsAttentive)
include hQ hs h hx

private theorem booked_look (store : Store W) : Booked Q d calls (d.look store) calls := by
  rcases Option.eq_none_or_eq_some d.hand with hh | ⟨⟨n, r⟩, hh⟩
  · rw [Desk.look, hh]
    exact .refl d calls
  have hqueued := h.hand n r hh
  -- A request in the hand that was not withdrawn is still pending.
  have hpending : d.appender.outcomes[n]? ≠ some .cancelled → d.appender.outcomes[n]? = some .pending :=
    ((hs.of_hand hh).2.1.waits n List.mem_cons_self).resolve_right
  have hlooked := looked_look hQ hs store hh
  generalize d.look store = d' at hlooked ⊢
  cases hlooked with
  | dropped _ => exact .note rfl rfl rfl rfl rfl
  | known _ _ _ hc =>
    refine .settled hqueued (hpending hc) rfl (fun _ he => absurd he (by simp)) rfl ?_
      (by simp [Event.entry?, Outcome.entry?]) fun _ _ hj => by simpa using hj
    exact (Figures.book_of_unsettled rfl rfl).symm
  | answered _ _ _ _ _ hc hv =>
    refine .settled hqueued (hpending hc) rfl (fun _ he => absurd he (by simp)) rfl ?_
      (by simp [Event.entry?, Outcome.entry?]) fun _ _ hj => by simpa using hj
    rw [hv]
    exact (Figures.book_of_unsettled rfl rfl).symm
  | @unanswered f s _ hc hv =>
    obtain ⟨timed, hv⟩ := hv
    have hstored : Journal.stored (d.journal ++ [.running n] ++ [.ended n (.failed f)]) = d.journal.stored := by
      rw [Journal.stored_concat, Journal.stored_concat]
      simp [Event.entry?, Outcome.entry?]
    refine .settled hqueued (hpending hc) rfl (fun _ he => absurd he (by simp)) rfl ?_
      (hstored.trans (List.append_nil _).symm) fun _ _ hj => by simpa using hj
    rw [hv, figures_countAppendDuration, figures_reportFailure hx]

private theorem booked_commit (hid : ∀ dr w e w', store.create dr w = (.ok e, w') → ∃ id, e = dr.withId id) :
    Booked Q d calls (d.commit store) calls := by
  rcases Option.eq_none_or_eq_some d.appender.admitted with hp | ⟨p, hp⟩
  · rw [Desk.commit, hp]
    exact .refl d calls
  have hqueued := h.admitted p hp
  have hrunning : d.appender.outcomes[p.ticket]? = some .running := ((hs.of_admitted hp).2.1.running _).mpr rfl
  have hcommitted := committed_commit hQ hs store hp
  generalize d.commit store = d' at hcommitted ⊢
  cases hcommitted with
  | failed _ hv =>
    obtain ⟨timed, hv⟩ := hv
    refine .settled hqueued hrunning rfl (fun _ he => absurd he (by simp)) rfl ?_
      (by simp [Event.entry?, Outcome.entry?]) fun _ _ hj => by simpa using hj
    rw [hv, figures_countAppendDuration, figures_reportFailure hx]
  | @stored reading hash dr e s hl hc hv =>
    obtain ⟨id, he⟩ := hid dr _ e _ hc
    have hrequest : e.request = p.request := by
      rw [he, (link_eq_ok hl).1]
      rfl
    refine .settled hqueued hrunning rfl (fun e' he' => Outcome.stored.inj he' ▸ hrequest) rfl ?_
      (by simp [Event.entry?, Outcome.entry?]) fun _ _ hj => by simpa using hj
    rw [hv, figures_reportStored hx]

end Writer

end Desk

namespace Crew

variable {W S : Type} {store : Store W} {strike : S → W → W} {limit : Option Nat} {Q : Request → Prop}

def calls (c : Crew W) : List (Nat × Request) := c.callers.filterMap Stage.call?

section Calls

variable {c : Crew W} {i : Nat} {st st' : Stage} {d' : Desk W}

private theorem calls_concat (st : Stage) (d' : Desk W) (c : Crew W) :
    ({ c with desk := d', callers := c.callers ++ [st] } : Crew W).calls = c.calls ++ st.call?.toList :=
  filterMap_concat Stage.call? c.callers st

private theorem calls_pass (hi : c.callers[i]? = some st) (he : st'.call? = st.call?) :
    (c.pass i st' d').calls = c.calls := by
  have hmap : (c.callers.set i st').map Stage.call? = c.callers.map Stage.call? := by
    rw [List.map_set, he]
    refine List.ext_getElem? fun k => ?_
    by_cases hk : i = k
    · subst hk
      rw [List.getElem?_set_self (by simpa using (List.getElem?_eq_some_iff.mp hi).1), List.getElem?_map, hi]
      rfl
    · rw [List.getElem?_set_ne hk]
  have hreduce : ∀ l : List Stage, l.filterMap Stage.call? = (l.map Stage.call?).filterMap id := fun l => by
    rw [List.filterMap_map]
    rfl
  rw [calls, calls, pass, hreduce, hmap, ← hreduce]

private theorem booked_pass (hi : c.callers[i]? = some st) (he : st'.call? = st.call?)
    (h : Booked Q c.desk c.calls d' c.calls) : Booked Q c.desk c.calls (c.pass i st' d').desk (c.pass i st' d').calls := by
  rw [calls_pass hi he]
  exact h

end Calls

/-- A caller inside that goes on books the ticket that it gets, and else nothing. -/
private theorem booked_proceed {c : Crew W} {i : Nat} {st : Stage} {P : Desk W → Prop} (h : Safe Q P c)
    (hi : c.callers[i]? = some st) :
    Booked Q c.desk c.calls (c.proceed store limit i st).desk (c.proceed store limit i st).calls := by
  have hrefl : Booked Q c.desk c.calls c.desk c.calls := .refl _ _
  match st with
  | .waits _ | .gone _ _ => exact hrefl
  | .entered (.append r) =>
    refine booked_pass hi ?_ hrefl
    split
    · rfl
    · rfl
  | .cleared r =>
    refine booked_pass hi ?_ hrefl
    split
    · rfl
    · rfl
  | .hiring r =>
    exact booked_pass hi rfl (Desk.booked_hire c.desk)
  | .staffed r =>
    rw [proceed]
    split
    · refine .issued (r := r) (o := .pending) (h.fits i _ hi).1 rfl rfl ?_ (by simp [pass, Desk.enqueue, Event.entry?]) ?_ ?_
      · exact (Figures.book_of_unsettled rfl rfl).symm
      · intro n q hj
        refine (List.mem_append.mp hj).imp_right fun hm => ?_
        obtain ⟨rfl, rfl⟩ := Event.queued.inj (List.mem_singleton.mp hm)
        rfl
      · exact perm_filterMap_set hi rfl _
    · exact hrefl
  | .entered .close =>
    rw [proceed]
    split
    · exact booked_pass hi rfl hrefl
    · refine booked_pass hi ?_ (Desk.booked_shut c.desk)
      split
      · rfl
      · rfl
  | .closing =>
    rw [proceed]
    split
    · exact booked_pass hi rfl (.nothing rfl rfl rfl fun _ _ hj => hj)
    · exact hrefl
  | .entered .start =>
    exact booked_pass hi (by cases (c.desk.launch store).1 <;> rfl) (Desk.booked_launch store c.desk)
  | .leaving e answer => exact booked_pass hi rfl hrefl

private theorem booked_advance {c : Crew W} {P : Desk W → Prop} (h : Safe Q P c) (i : Nat) :
    Booked Q c.desk c.calls (c.advance store limit i).desk (c.advance store limit i).calls := by
  rw [advance]
  split
  · rename_i e hi
    split
    · exact booked_pass hi rfl (.refl _ _)
    · exact .refl _ _
  · rename_i st _ hi
    exact booked_proceed h hi
  · exact .refl _ _

private theorem booked_call {c : Crew W} (hx : c.desk.scene.watch.figures.IsAttentive) {e : Errand} (he : e.Meets Q) :
    Booked Q c.desk c.calls (c.call e).desk (c.call e).calls := by
  have hwaits : ∀ e : Errand,
      Booked Q c.desk c.calls c.desk ({ c with callers := c.callers ++ [.waits e] } : Crew W).calls := by
    intro e
    rw [calls_concat]
    exact (List.append_nil c.calls).symm ▸ .refl _ _
  cases e with
  | append r =>
    rw [call]
    dsimp only
    cases hr : r.accepted with
    | some q => exact hwaits _
    | none =>
      dsimp only
      rcases Desk.refuse_cases hr c.desk with ⟨f, hf⟩ | ⟨f, hf⟩
      · rw [hf, calls_concat]
        exact (List.append_nil c.calls).symm ▸ .refl _ _
      · rw [hf, calls_concat]
        refine .issued (he r rfl) rfl rfl (figures_reportFailure hx f r) rfl (fun _ _ hj => .inl hj) ?_
        exact List.perm_append_singleton _ _
  | close => exact hwaits _
  | start => exact hwaits _

/-- Every act books one ticket at most. -/
theorem booked_step (hQ : ∀ r, Q r → r.eventType.display?.isSome = true)
    (hid : ∀ dr w e w', store.create dr w = (.ok e, w') → ∃ id, e = dr.withId id) {c : Crew W}
    (h : Safe Q Desk.Faithful c) (hx : c.desk.scene.watch.figures.IsAttentive) {a : Act S}
    (ha : ∀ r, a = .call (.append r) → Q r) :
    Booked Q c.desk c.calls (step store strike limit a c).desk (step store strike limit a c).calls := by
  cases a with
  | call e => exact booked_call hx fun r he => ha r (he ▸ rfl)
  | advance i => exact booked_advance h i
  | cancel n => exact Desk.booked_cancel h.sound h.kept n
  | outage o => exact .nothing rfl rfl rfl fun _ _ hj => hj
  | take => exact Desk.booked_take c.desk
  | look => exact Desk.booked_look hQ h.sound h.kept hx store
  | commit => exact Desk.booked_commit hQ h.sound h.kept hx hid

end Crew

end AuditTrail
