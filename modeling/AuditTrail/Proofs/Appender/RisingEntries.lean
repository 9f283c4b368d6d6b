import AuditTrail.Proofs.Appender.Provenance

/-!
# The entries rise

However callers and the writer are interleaved, each entry that an appender stores is later than those that it stored
before (`Desk.Rising`). So no two of them are alike, whatever the ids are that the store gives them.
-/

namespace AuditTrail

open Appender

namespace Desk

variable {W S : Type} {store : Store W} {strike : S → W → W} {Q : Request → Prop} {R : W → List Entry → Prop}
  {B : Value → Prop} {d d' : Desk W}

/-- Each stored entry is later than those before it, and none is later than the last instant that the writer knows. -/
structure Rising (d : Desk W) : Prop where
  increasing : Chain.IsIncreasing d.journal.stored
  last : ∀ e ∈ d.journal.stored, ∃ t, d.appender.lastAt = some t ∧ e.createdAt.moment ≤ t.moment

namespace Rising

theorem of_nil (h : d.journal.stored = []) : Rising d := by
  refine ⟨?_, ?_⟩
  · rw [h]
    exact .nil
  · rw [h]
    exact fun _ he => absurd he List.not_mem_nil

private theorem same (h : Rising d) (hj : d'.journal.stored = d.journal.stored)
    (hl : d'.appender.lastAt = d.appender.lastAt) :
    Rising d' := by
  refine ⟨hj ▸ h.increasing, ?_⟩
  rw [hj, hl]
  exact h.last

private theorem launch (h : Rising d) (ha : Anchored R B d) (store : Store W) : Rising (d.launch store).2 := by
  have hlaunched := launched_launch store d
  generalize (d.launch store).2 = d' at hlaunched ⊢
  cases hlaunched with
  | nothing => exact h
  | unanswered _ _ => exact h.same (by simp [Event.entry?]) rfl
  | answered hs _ =>
    -- Nothing is stored before the writer is started.
    exact .of_nil (by simpa [Event.entry?] using ha.idle hs)

private theorem look (hQ : ∀ r, Q r → r.eventType.display?.isSome = true) (hs : Sound Q d) (h : Rising d)
    (ha : Anchored R B d) (store : Store W) : Rising (d.look store) := by
  rcases Option.eq_none_or_eq_some d.hand with hh | ⟨⟨n, r⟩, hh⟩
  · rw [Desk.look, hh]
    exact h
  have hlooked := looked_look hQ hs store hh
  generalize d.look store = d' at hlooked ⊢
  cases hlooked with
  | dropped _ => exact h.same (by simp [Event.entry?, Outcome.entry?]) rfl
  | known _ _ _ => exact h.same (by simp [Event.entry?]) rfl
  | answered _ _ ht _ _ =>
    -- Nothing was stored while the tip is not known.
    have hnone : d.journal.stored = [] := by
      by_contra hne
      have hknown := ha.known hne
      rw [ht] at hknown
      exact absurd hknown (by simp)
    exact .of_nil (by simpa [Event.entry?] using hnone)
  | unanswered _ =>
    refine h.same ?_ rfl
    rw [Journal.stored_concat, Journal.stored_concat]
    simp [Event.entry?, Outcome.entry?]

private theorem commit (hQ : ∀ r, Q r → r.eventType.display?.isSome = true) (hs : Sound Q d) (h : Rising d)
    (hid : ∀ dr w e w', store.create dr w = (.ok e, w') → ∃ id, e = dr.withId id) : Rising (d.commit store) := by
  rcases Option.eq_none_or_eq_some d.appender.admitted with hp | ⟨p, hp⟩
  · rw [Desk.commit, hp]
    exact h
  have hcommitted := committed_commit hQ hs store hp
  generalize d.commit store = d' at hcommitted ⊢
  cases hcommitted with
  | failed _ => exact h.same (by simp [Event.entry?, Outcome.entry?]) rfl
  | @stored reading hash dr e s hl hc =>
    obtain ⟨id, he⟩ := hid dr _ e _ hc
    have hat : e.createdAt = dr.createdAt := by
      rw [he]
      rfl
    have hlater : ∀ f ∈ d.journal.stored, f.createdAt.moment < e.createdAt.moment := by
      intro f hf
      obtain ⟨t, ht, hle⟩ := h.last f hf
      have hlt := lt_of_stampAfter (link_eq_ok hl).2.1 ht
      rw [hat]
      omega
    have hstored : Journal.stored (d.journal ++ [.ended p.ticket (.stored e)]) = d.journal.stored ++ [e] := by
      simp [Event.entry?, Outcome.entry?]
    refine ⟨?_, ?_⟩
    · rw [hstored]
      refine List.pairwise_append.mpr ⟨h.increasing, List.pairwise_singleton _ _, fun f hf g hg => ?_⟩
      rw [List.mem_singleton.mp hg]
      exact hlater f hf
    · rw [hstored]
      intro f hf
      refine ⟨dr.createdAt, rfl, ?_⟩
      rw [← hat]
      rcases List.mem_append.mp hf with hf | hf
      · exact Int.le_of_lt (hlater f hf)
      · rw [List.mem_singleton.mp hf]

theorem invariant (hQ : ∀ r, Q r → r.eventType.display?.isSome = true) (hb : store.Backs strike R B)
    (hid : ∀ dr w e w', store.create dr w = (.ok e, w') → ∃ id, e = dr.withId id) :
    Invariant store strike Q fun d => Anchored R B d ∧ Rising d := by
  have hanchored := Anchored.invariant hQ hb
  exact {
    refuse := fun r d hs hr h => by
      refine ⟨hanchored.refuse r d hs hr h.1, ?_⟩
      rcases refuse_cases hr d with ⟨f, he⟩ | ⟨f, he⟩
      · rw [he]
        exact h.2
      · rw [he]
        exact h.2.same rfl rfl
    hire := fun d hs h => ⟨hanchored.hire d hs h.1, h.2.same (by simp [Desk.hire, Event.entry?]) rfl⟩
    launch := fun d hs h => ⟨hanchored.launch d hs h.1, h.2.launch h.1 store⟩
    enqueue := fun r d hs h => ⟨hanchored.enqueue r d hs h.1, h.2.same (by simp [Desk.enqueue, Event.entry?]) rfl⟩
    shut := fun d hs h => ⟨hanchored.shut d hs h.1, h.2.same (by simp [Desk.shut, Event.entry?]) rfl⟩
    mark := fun d hs h => ⟨hanchored.mark d hs h.1, h.2.same rfl rfl⟩
    cancel := fun n d hs h => by
      refine ⟨hanchored.cancel n d hs h.1, ?_⟩
      rw [Desk.cancel, Appender.cancel]
      split
      · exact h.2.same rfl rfl
      · exact h.2
      · exact h.2
    outage := fun o d hs h => ⟨hanchored.outage o d hs h.1, h.2.same rfl rfl⟩
    take := fun d hs h => by
      refine ⟨hanchored.take d hs h.1, ?_⟩
      have htaken := d.taken_take
      generalize d.take = d' at htaken ⊢
      cases htaken with
      | nothing _ => exact h.2
      | stop _ _ => exact h.2.same rfl rfl
      | request _ _ => exact h.2.same (by simp [Event.entry?]) rfl
    look := fun d hs h => ⟨hanchored.look d hs h.1, h.2.look hQ hs h.1 store⟩
    commit := fun d hs h => ⟨hanchored.commit d hs h.1, h.2.commit hQ hs hid⟩ }

theorem nodup (h : Rising d) : d.journal.stored.Nodup :=
  h.increasing.imp fun {_ _} hlt he => by
    subst he
    exact absurd hlt (Int.lt_irrefl _)

end Rising

end Desk

end AuditTrail
