import AuditTrail.Proofs.Appender.Custody

/-!
# Errands under the lock

One caller at most is between taking the lock and letting go of it, and what it has found out about the appender stays
true until it acts on it (`Stage.Fits`). So what is kept of a desk by everything that can happen at it is kept by every
interleaving of callers and the writer (`Crew.safe_run`).
-/

namespace AuditTrail

variable {W S : Type} {store : Store W} {strike : S → W → W} {limit : Option Nat} {Q : Request → Prop}
  {P : Desk W → Prop} {d d' : Desk W}

namespace Errand

def Meets (Q : Request → Prop) (e : Errand) : Prop := ∀ r, e = .append r → Q r

/-- A ticket that was given for an accepted request was queued with it. -/
def IsAnswered (j : Journal) (e : Errand) (answer : Except Fault (Option Nat)) : Prop :=
  ∀ r n, e = .append r → answer = .ok (some n) → r.accepted = some r → .queued n r ∈ j

end Errand

namespace Stage

/-- What a caller in a stage relies on. -/
def Fits (Q : Request → Prop) (d : Desk W) : Stage → Prop
  | waits e | entered e => e.Meets Q
  | cleared r => Q r ∧ d.appender.closed = false
  | hiring r => Q r ∧ d.appender.closed = false ∧ d.appender.started = false
  | staffed r => Q r ∧ d.appender.closed = false ∧ d.appender.started = true
  | closing => d.appender.closed = true ∧ d.appender.started = true ∧ d.appender.stopped = false ∧
      .stop ∉ d.appender.queue
  | leaving e answer | gone e answer => e.IsAnswered d.journal answer

/-- What the writer does, and those who withdraw, is nothing that a caller relies on not to happen. -/
private theorem Fits.calm {st : Stage} (h : st.Fits Q d) (hd : d.Calm d') : st.Fits Q d' := by
  obtain ⟨hc, hs, hj, hu⟩ := hd
  cases st with
  | waits e => exact h
  | entered e => exact h
  | cleared r => exact ⟨h.1, hc.trans h.2⟩
  | hiring r => exact ⟨h.1, hc.trans h.2.1, hs.trans h.2.2⟩
  | staffed r => exact ⟨h.1, hc.trans h.2.1, hs.trans h.2.2⟩
  | closing => exact ⟨hc.trans h.1, hs.trans h.2.1, hu h.2.2.1 h.2.2.2⟩
  | leaving e answer => exact fun r n he ha hr => hj (h r n he ha hr)
  | gone e answer => exact fun r n he ha hr => hj (h r n he ha hr)

private theorem Fits.outside {st : Stage} (h : st.Fits Q d) (ho : st.isInside = false) (hj : d.journal ⊆ d'.journal) :
    st.Fits Q d' := by
  cases st with
  | waits e => exact h
  | gone e answer => exact fun r n he ha hr => hj (h r n he ha hr)
  | _ => exact absurd ho (by simp [isInside])

end Stage

namespace Crew

/-- A crew around a desk in order: who is inside holds the lock, and what each caller relies on is true. -/
structure Safe (Q : Request → Prop) (P : Desk W → Prop) (c : Crew W) : Prop where
  sound : c.desk.Sound Q
  kept : P c.desk
  lock : ∀ (i : Nat) (st : Stage), c.callers[i]? = some st → st.isInside = true → c.holder = some i
  fits : ∀ (i : Nat) (st : Stage), c.callers[i]? = some st → st.Fits Q c.desk

namespace Safe

variable {c : Crew W} {i : Nat} {st st' : Stage}

theorem fresh (w : W) (clock : Clock) (watch : Watch) (hP : P (.fresh w clock watch)) :
    Safe Q P (.fresh w clock watch) :=
  ⟨.fresh w clock watch, hP, fun _ _ hi => absurd hi (by simp [Crew.fresh]), fun _ _ hi => absurd hi (by simp [Crew.fresh])⟩

private theorem withDesk (h : Safe Q P c) (hd : c.desk.Calm d') (hs : d'.Sound Q) (hP : P d') :
    Safe Q P { c with desk := d' } :=
  ⟨hs, hP, h.lock, fun i st hi => (h.fits i st hi).calm hd⟩

private theorem withCaller (h : Safe Q P c) (ho : st.isInside = false) (hf : st.Fits Q c.desk) :
    Safe Q P { c with callers := c.callers ++ [st] } := by
  have hold : ∀ {i : Nat} {st' : Stage}, (c.callers ++ [st])[i]? = some st' → st' = st ∨ c.callers[i]? = some st' := by
    intro i st' hi
    rw [getElem?_concat_eq] at hi
    split at hi
    · exact .inl (Option.some.inj hi).symm
    · exact .inr hi
  refine ⟨h.sound, h.kept, fun i st' hi hin => ?_, fun i st' hi => ?_⟩
  · rcases hold hi with rfl | hi
    · exact absurd (ho.symm.trans hin) (by decide)
    · exact h.lock i st' hi hin
  · rcases hold hi with rfl | hi
    · exact hf
    · exact h.fits i st' hi

/-- A caller comes to another stage. Those who stay inside keep the lock, and those who stay outside do not mind. -/
private theorem withStage (h : Safe Q P c) (hi : c.callers[i]? = some st) (hd : d'.Sound Q) (hP : P d')
    (hj : c.desk.journal ⊆ d'.journal) (hf : st'.Fits Q d') {holder : Option Nat}
    (hholder : c.holder = none ∨ c.holder = some i) (hin : st'.isInside = true → holder = some i) :
    Safe Q P ⟨d', c.callers.set i st', holder⟩ := by
  have hlt := (List.getElem?_eq_some_iff.mp hi).1
  have hothers : ∀ k other, k ≠ i → c.callers[k]? = some other → other.isInside = false := by
    intro k other hne hk
    rw [← Bool.not_eq_true]
    intro hinside
    have hlock := h.lock k other hk hinside
    rcases hholder with hn | hn
    · exact absurd (hn.symm.trans hlock) (by simp)
    · exact hne (Option.some.inj (hlock.symm.trans hn))
  refine ⟨hd, hP, fun k other hk hinside => ?_, fun k other hk => ?_⟩
  · by_cases he : i = k
    · subst he
      rw [List.getElem?_set_self hlt] at hk
      exact hin (Option.some.inj hk ▸ hinside)
    · rw [List.getElem?_set_ne he] at hk
      exact absurd ((hothers k other (Ne.symm he) hk).symm.trans hinside) (by decide)
  · by_cases he : i = k
    · subst he
      rw [List.getElem?_set_self hlt] at hk
      exact Option.some.inj hk ▸ hf
    · rw [List.getElem?_set_ne he] at hk
      exact (h.fits k other hk).outside (hothers k other (Ne.symm he) hk) hj

private theorem pass (h : Safe Q P c) (hi : c.callers[i]? = some st) (hin : st.isInside = true) (hd : d'.Sound Q)
    (hP : P d') (hj : c.desk.journal ⊆ d'.journal) (hf : st'.Fits Q d') : Safe Q P (c.pass i st' d') :=
  h.withStage hi hd hP hj hf (.inr (h.lock i st hi hin)) fun _ => h.lock i st hi hin

end Safe

section Steps

variable (hQ : ∀ r, Q r → r.eventType.display?.isSome = true) (hP : Desk.Invariant store strike Q P)
include hP

private theorem safe_proceed {c : Crew W} {i : Nat} {st : Stage} (h : Safe Q P c) (hi : c.callers[i]? = some st)
    (hin : st.isInside = true) : Safe Q P (c.proceed store limit i st) := by
  have hfits := h.fits i st hi
  have hsame : c.desk.journal ⊆ c.desk.journal := List.Subset.refl _
  match st, hin, hfits with
  | .entered (.append r), _, hfits =>
    refine h.pass hi rfl h.sound h.kept hsame ?_
    by_cases hc : c.desk.appender.closed = true
    · rw [if_pos hc]
      exact fun _ _ _ ha => absurd ha (by simp)
    · rw [if_neg hc]
      exact ⟨hfits r rfl, Bool.not_eq_true _ ▸ hc⟩
  | .cleared r, _, hfits =>
    refine h.pass hi rfl h.sound h.kept hsame ?_
    by_cases hs : c.desk.appender.started = true
    · rw [if_pos hs]
      exact ⟨hfits.1, hfits.2, hs⟩
    · rw [if_neg hs]
      exact ⟨hfits.1, hfits.2, Bool.not_eq_true _ ▸ hs⟩
  | .hiring r, _, hfits =>
    exact h.pass hi rfl (h.sound.hire hfits.2.2) (hP.hire _ h.sound h.kept) (List.subset_append_left _ _)
      ⟨hfits.1, hfits.2.1, rfl⟩
  | .staffed r, _, hfits =>
    rw [proceed]
    split
    · refine h.pass hi rfl (h.sound.enqueue hfits.1 hfits.2.1 hfits.2.2) (hP.enqueue r _ h.sound h.kept)
        (List.subset_append_left _ _) ?_
      intro q n he ha _
      obtain rfl := Errand.append.inj he
      obtain rfl := Option.some.inj (Except.ok.inj ha)
      exact List.mem_concat_self
    · exact h
  | .entered .close, _, _ =>
    rw [proceed]
    split
    · exact h.pass hi rfl h.sound h.kept hsame fun _ _ he => absurd he (by simp)
    · rename_i hopen
      refine h.pass hi rfl h.sound.shut (hP.shut _ h.sound h.kept) (List.subset_append_left _ _) ?_
      split
      · refine ⟨rfl, ‹_›, ?_, ?_⟩
        · rw [← Bool.not_eq_true]
          exact fun hs => hopen (h.sound.stopped hs)
        · intro hq
          obtain ⟨front, back, hfb⟩ := List.append_of_mem hq
          exact hopen (h.sound.marked front back hfb).2
      · exact fun _ _ he => absurd he (by simp)
  | .closing, _, hfits =>
    rw [proceed]
    split
    · obtain ⟨hc, hs, hn, hq⟩ := hfits
      exact h.pass hi rfl (h.sound.mark hc hs hn hq) (hP.mark _ h.sound h.kept) hsame fun _ _ he => absurd he (by simp)
    · exact h
  | .entered .start, _, _ =>
    exact h.pass hi rfl (h.sound.launch store) (hP.launch _ h.sound h.kept) (List.subset_append_left _ _)
      fun _ _ he => absurd he (by simp)
  | .leaving e answer, _, hfits =>
    have hgone : (Stage.gone e answer).Fits Q c.desk := hfits
    exact h.withStage hi h.sound h.kept hsame hgone (.inr (h.lock i _ hi rfl)) fun hn => absurd hn (by simp [Stage.isInside])

private theorem safe_advance {c : Crew W} (h : Safe Q P c) (i : Nat) : Safe Q P (c.advance store limit i) := by
  rw [advance]
  split
  · rename_i e hi
    split
    · rename_i hfree
      rw [Option.isNone_iff_eq_none] at hfree
      have hwaits : (Stage.waits e).Fits Q c.desk := h.fits i _ hi
      have hentered : (Stage.entered e).Fits Q c.desk := hwaits
      exact h.withStage hi h.sound h.kept (List.Subset.refl _) hentered (.inl hfree) fun _ => rfl
    · exact h
  · rename_i st hne hi
    by_cases hin : st.isInside = true
    · exact safe_proceed hP h hi hin
    · cases st with
      | waits e => exact absurd rfl (hne e)
      | gone e answer => exact h
      | _ => exact absurd rfl hin
  · exact h

private theorem safe_call {c : Crew W} (h : Safe Q P c) {e : Errand}
    (he : ∀ r, e = .append r → ∀ q, r.accepted = some q → Q q) :
    Safe Q P (c.call e) := by
  cases e with
  | append r =>
    rw [call]
    dsimp only
    split
    · rename_i q hq
      refine h.withCaller rfl ?_
      intro r' hr'
      exact Errand.append.inj hr' ▸ he r rfl q hq
    · rename_i hr
      have hdesk : Safe Q P { c with desk := (c.desk.refuse r).2 } :=
        h.withDesk (.refuse hr c.desk) (h.sound.refuse hr) (hP.refuse r _ h.sound hr h.kept)
      refine hdesk.withCaller rfl ?_
      intro r' n hr' _ hq
      obtain rfl := Errand.append.inj hr'
      exact absurd (hr.symm.trans hq) (by simp)
  | close => exact h.withCaller rfl fun _ hr => absurd hr (by simp)
  | start => exact h.withCaller rfl fun _ hr => absurd hr (by simp)

include hQ

theorem safe_step {c : Crew W} (h : Safe Q P c) {a : Act S}
    (ha : ∀ r, a = .call (.append r) → ∀ q, r.accepted = some q → Q q) :
    Safe Q P (step store strike limit a c) := by
  cases a with
  | call e => exact safe_call hP h fun r he => ha r (he ▸ rfl)
  | advance i => exact safe_advance hP h i
  | cancel n => exact h.withDesk (.cancel n c.desk) (h.sound.cancel n) (hP.cancel n _ h.sound h.kept)
  | outage o =>
    have hsound : (c.desk.strikeWith (strike o)).Sound Q := by
      obtain ⟨tidy, record, doors, busy, resting, stopped, marked⟩ := h.sound
      exact ⟨tidy, record, doors, busy, resting, stopped, marked⟩
    have hcalm : c.desk.Calm (c.desk.strikeWith (strike o)) :=
      ⟨rfl, rfl, List.Subset.refl _, fun hs hq => ⟨hs, hq⟩⟩
    exact h.withDesk hcalm hsound (hP.outage o _ h.sound h.kept)
  | take => exact h.withDesk (.take c.desk) h.sound.take (hP.take _ h.sound h.kept)
  | look => exact h.withDesk (.look hQ h.sound store) (h.sound.look hQ store) (hP.look _ h.sound h.kept)
  | commit => exact h.withDesk (.commit hQ h.sound store) (h.sound.commit hQ store) (hP.commit _ h.sound h.kept)

/-- What is kept of a desk by everything that can happen at it is kept by every interleaving. -/
theorem safe_run {c : Crew W} (h : Safe Q P c) {acts : List (Act S)}
    (ha : ∀ r, .call (.append r) ∈ acts → ∀ q, r.accepted = some q → Q q) :
    Safe Q P (run store strike limit acts c) := by
  induction acts generalizing c with
  | nil => exact h
  | cons a rest ih =>
    have hstep : Safe Q P (step store strike limit a c) :=
      safe_step hQ hP h fun r hr => ha r (hr ▸ List.mem_cons_self)
    exact ih hstep fun r hr => ha r (List.mem_cons_of_mem a hr)

end Steps

end Crew

end AuditTrail
