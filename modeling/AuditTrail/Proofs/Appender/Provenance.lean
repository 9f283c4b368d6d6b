import AuditTrail.Proofs.Appender.Custody

/-!
# Where the entries come from

An entry that was stored for a ticket is that of the request that was queued with it (`Desk.Faithful`), and the entries
are linked in the order in which they were stored, the first one to what the store held before (`Desk.Anchored`).
Whatever happens at a desk keeps both, on every store that returns what it creates (`Store.Backs`), as every store of a
site does (`Handle.backs`).
-/

namespace AuditTrail

open Appender

private theorem Value.eq_of_nonNull? {v t : Value} (h : v.nonNull? = some t) : t = v := by
  cases v with
  | null => exact absurd h (by simp [nonNull?])
  | _ => exact (Option.some.inj h).symm

/-- What a store does with the rows `es` that an appender has created in it, where `R` tells what its world holds then
and `B` what its last entry before them can be. -/
structure Store.Backs {W S : Type} (store : Store W) (strike : S → W → W) (R : W → List Entry → Prop)
    (B : Value → Prop) : Prop where
  created : ∀ d w e w' es, store.create d w = (.ok e, w') → R w es → (∃ id, e = d.withId id) ∧ R w' (es ++ [e])
  refused : ∀ d w f w' es, store.create d w = (.error f, w') → R w es → R w' es
  asked : ∀ w es, R w es → R (store.findLast w).2 es
  struck : ∀ o w es, R w es → R (strike o w) es
  base : ∀ w last w', R w [] → store.findLast w = (.ok last, w') → B (Chain.expectedAfter last)

namespace Desk

variable {W S : Type} {store : Store W} {strike : S → W → W} {Q : Request → Prop} {R : W → List Entry → Prop}
  {B : Value → Prop} {d d' : Desk W}

/-- The requests at a desk are those that were queued with their tickets, and so are those of the stored entries. -/
structure Faithful (d : Desk W) : Prop where
  waiting : ∀ n r, .request n r ∈ d.appender.queue → .queued n r ∈ d.journal
  hand : ∀ n r, d.hand = some (n, r) → .queued n r ∈ d.journal
  admitted : ∀ p, d.appender.admitted = some p → .queued p.ticket p.request ∈ d.journal
  stored : ∀ n e, .ended n (.stored e) ∈ d.journal → .queued n e.request ∈ d.journal

namespace Faithful

theorem fresh (w : W) (clock : Clock) (watch : Watch) : Faithful (.fresh w clock watch) := by
  refine ⟨?_, ?_, ?_, ?_⟩
  · exact fun _ _ hr => absurd hr List.not_mem_nil
  · exact fun _ _ hh => absurd hh (by simp [Desk.fresh])
  · exact fun _ hp => absurd hp (by simp [Desk.fresh, Appender.fresh])
  · exact fun _ _ he => absurd he List.not_mem_nil

private theorem mono (h : Faithful d) (hj : d.journal ⊆ d'.journal)
    (hq : ∀ n r, .request n r ∈ d'.appender.queue → .request n r ∈ d.appender.queue)
    (hh : ∀ n r, d'.hand = some (n, r) → d.hand = some (n, r))
    (hp : ∀ p, d'.appender.admitted = some p → d.appender.admitted = some p)
    (hs : ∀ n e, .ended n (.stored e) ∈ d'.journal → .ended n (.stored e) ∈ d.journal) : Faithful d' :=
  ⟨fun n r hr => hj (h.waiting n r (hq n r hr)), fun n r he => hj (h.hand n r (hh n r he)),
    fun p ha => hj (h.admitted p (hp p ha)), fun n e he => hj (h.stored n e (hs n e he))⟩

private theorem note (h : Faithful d) {e : Event} (he : e.entry? = none) {a : Appender} {s : Scene W}
    (hq : a.queue = d.appender.queue) (hp : a.admitted = d.appender.admitted) :
    Faithful ⟨a, s, d.hand, d.journal ++ [e]⟩ := by
  refine h.mono (List.subset_append_left _ _) ?_ (fun _ _ hh => hh) ?_ ?_
  · exact fun n r hr => hq ▸ hr
  · exact fun p ha => hp ▸ ha
  · intro n e' hm
    rcases List.mem_append.mp hm with hm | hm
    · exact hm
    · rw [← List.mem_singleton.mp hm] at he
      exact absurd he (by simp [Event.entry?, Outcome.entry?])

private theorem same (h : Faithful d) {a : Appender} {s : Scene W} (hq : a.queue = d.appender.queue)
    (hp : a.admitted = d.appender.admitted) : Faithful { d with appender := a, scene := s } :=
  h.mono (List.Subset.refl _) (fun _ _ hr => hq ▸ hr) (fun _ _ hh => hh) (fun _ ha => hp ▸ ha) fun _ _ he => he

private theorem enqueue (h : Faithful d) (r : Request) : Faithful (d.enqueue r) := by
  have hj : d.journal ⊆ (d.enqueue r).journal := List.subset_append_left _ _
  refine ⟨?_, fun n q hh => hj (h.hand n q hh), fun p hp => hj (h.admitted p hp), ?_⟩
  · intro n q hq
    rcases List.mem_append.mp hq with hq | hq
    · exact hj (h.waiting n q hq)
    · obtain ⟨rfl, rfl⟩ := Item.request.inj (List.mem_singleton.mp hq)
      exact List.mem_concat_self
  · intro n e he
    rcases List.mem_append.mp he with he | he
    · exact hj (h.stored n e he)
    · exact absurd (List.mem_singleton.mp he) (by simp)

private theorem take (h : Faithful d) : Faithful d.take := by
  have htaken := d.taken_take
  generalize d.take = d' at htaken ⊢
  cases htaken with
  | nothing _ => exact h
  | stop _ hq =>
    refine h.mono (List.Subset.refl _) ?_ (fun _ _ hh => hh) (fun _ hp => hp) fun _ _ hs => hs
    exact fun n r hr => hq ▸ List.mem_cons_of_mem _ hr
  | @request n r rest _ hq =>
    have hj : d.journal ⊆ d.journal ++ [.taken n] := List.subset_append_left _ _
    refine ⟨fun m q hm => hj (h.waiting m q (hq ▸ List.mem_cons_of_mem _ hm)), ?_, fun p hp => hj (h.admitted p hp), ?_⟩
    · intro m q hh
      obtain ⟨rfl, rfl⟩ := Prod.mk.inj (Option.some.inj hh)
      exact hj (h.waiting n r (hq ▸ List.mem_cons_self))
    · intro m e hm
      rcases List.mem_append.mp hm with hm | hm
      · exact hj (h.stored m e hm)
      · exact absurd (List.mem_singleton.mp hm) (by simp)

private theorem look (hQ : ∀ r, Q r → r.eventType.display?.isSome = true) (hs : Sound Q d) (h : Faithful d)
    (store : Store W) :
    Faithful (d.look store) := by
  rcases Option.eq_none_or_eq_some d.hand with hh | ⟨⟨n, r⟩, hh⟩
  · rw [Desk.look, hh]
    exact h
  have hlooked := looked_look hQ hs store hh
  generalize d.look store = d' at hlooked ⊢
  cases hlooked with
  | dropped _ =>
    refine h.mono (List.subset_append_left _ _) (fun _ _ hr => hr) (by simp) (by simp) ?_
    simp
  | @known p hn hr _ | @answered p _ _ _ hn hr _ _ _ =>
    subst hn hr
    have hj : d.journal ⊆ d.journal ++ [.running p.ticket] := List.subset_append_left _ _
    refine ⟨fun n r hr => hj (h.waiting n r hr), by simp, ?_, ?_⟩
    · intro q hq
      rw [← Option.some.inj hq]
      exact hj (h.hand _ _ hh)
    · intro n e hm
      exact hj (h.stored n e (by simpa using hm))
  | unanswered _ =>
    refine h.mono ?_ (fun _ _ hr => hr) (by simp) (by simp) ?_
    · exact List.subset_append_of_subset_left _ (List.subset_append_left _ _)
    · simp

private theorem commit (hQ : ∀ r, Q r → r.eventType.display?.isSome = true) (hs : Sound Q d) (h : Faithful d)
    (hid : ∀ dr w e w', store.create dr w = (.ok e, w') → ∃ id, e = dr.withId id) : Faithful (d.commit store) := by
  rcases Option.eq_none_or_eq_some d.appender.admitted with hp | ⟨p, hp⟩
  · rw [Desk.commit, hp]
    exact h
  have hcommitted := committed_commit hQ hs store hp
  generalize d.commit store = d' at hcommitted ⊢
  cases hcommitted with
  | failed _ =>
    refine h.mono (List.subset_append_left _ _) (fun _ _ hr => hr) (by simp) (by simp) ?_
    simp
  | @stored reading hash dr e s hl hc =>
    have hj : d.journal ⊆ d.journal ++ [.ended p.ticket (.stored e)] := List.subset_append_left _ _
    obtain ⟨id, he⟩ := hid dr _ e _ hc
    have hrequest : e.request = p.request := by
      rw [he, (link_eq_ok hl).1]
      rfl
    refine ⟨fun n r hr => hj (h.waiting n r hr), by simp, by simp, ?_⟩
    intro n e' hm
    rcases List.mem_append.mp hm with hm | hm
    · exact hj (h.stored n e' hm)
    · obtain ⟨rfl, ho⟩ := Event.ended.inj (List.mem_singleton.mp hm)
      rw [Outcome.stored.inj ho, hrequest]
      exact hj (h.admitted p hp)

theorem invariant (hQ : ∀ r, Q r → r.eventType.display?.isSome = true)
    (hid : ∀ dr w e w', store.create dr w = (.ok e, w') → ∃ id, e = dr.withId id) :
    Invariant store strike Q Faithful where
  refuse r d _ hr h := by
    rcases refuse_cases hr d with ⟨f, he⟩ | ⟨f, he⟩
    · rwa [he]
    · rw [he]
      exact h.same rfl rfl
  hire d _ h := h.note rfl rfl rfl
  launch d _ h := by
    have hlaunched := launched_launch store d
    generalize (d.launch store).2 = d' at hlaunched ⊢
    cases hlaunched with
    | nothing => exact h
    | unanswered _ _ | answered _ _ => exact h.note rfl rfl rfl
  enqueue r d _ h := h.enqueue r
  shut d _ h := h.note rfl rfl rfl
  mark d _ h := by
    refine h.mono (List.Subset.refl _) ?_ (fun _ _ hh => hh) (fun _ hp => hp) fun _ _ he => he
    exact fun n r hr => (List.mem_append.mp hr).elim id fun hm => absurd (List.mem_singleton.mp hm) (by simp)
  cancel n d _ h := by
    rw [Desk.cancel, Appender.cancel]
    split
    · exact h.same rfl rfl
    · exact h
    · exact h
  outage o d _ h := h.same rfl rfl
  take d _ h := h.take
  look d hs h := h.look hQ hs store
  commit d hs h := h.commit hQ hs hid

end Faithful

/-- A hash that an entry behind given ones can follow, the first of which follows a base. -/
def Follows (B : Value → Prop) (es : List Entry) (t : Value) : Prop :=
  ∃ b, B b ∧ Chain.Linked b es ∧ t = Chain.tip b es

/-- The entries that were stored are linked, and a tip that is known is where the next one goes. The store was not asked
for the tip again after it stored an entry. -/
structure Anchored (R : W → List Entry → Prop) (B : Value → Prop) (d : Desk W) : Prop where
  rows : R d.scene.world d.journal.stored
  known : d.journal.stored ≠ [] → d.appender.tip.isSome = true
  tip : ∀ t, d.appender.tip = some t → Follows B d.journal.stored t
  admitted : ∀ p, d.appender.admitted = some p → Follows B d.journal.stored p.previousHash
  idle : d.appender.started = false → d.journal.stored = []

namespace Anchored

theorem fresh {w : W} (hw : R w []) (clock : Clock) (watch : Watch) : Anchored R B (.fresh w clock watch) := by
  refine ⟨hw, fun hn => absurd rfl hn, ?_, ?_, fun _ => rfl⟩
  · exact fun t ht => absurd ht (by simp [Desk.fresh, Appender.fresh])
  · exact fun p hp => absurd hp (by simp [Desk.fresh, Appender.fresh])

private theorem same (h : Anchored R B d) {d' : Desk W} (hw : R d'.scene.world d.journal.stored)
    (hj : d'.journal.stored = d.journal.stored) (ht : d'.appender.tip = d.appender.tip)
    (hp : d'.appender.admitted = none ∨ d'.appender.admitted = d.appender.admitted)
    (hs : d'.appender.started = false → d.appender.started = false) : Anchored R B d' := by
  refine ⟨hj ▸ hw, ?_, ?_, ?_, fun hn => hj.trans (h.idle (hs hn))⟩
  · rw [hj, ht]
    exact h.known
  · rw [hj, ht]
    exact h.tip
  · intro p ha
    rw [hj]
    rcases hp with hp | hp
    · exact absurd (hp.symm.trans ha) (by simp)
    · exact h.admitted p (hp ▸ ha)

private theorem follows_base (h : Anchored R B d) (hb : store.Backs strike R B) (hs : d.journal.stored = [])
    {last : Option Entry} {w : W} (hf : store.findLast d.scene.world = (.ok last, w)) :
    Follows B d.journal.stored (Chain.expectedAfter last) := by
  have hrows := h.rows
  rw [hs] at hrows ⊢
  exact ⟨_, hb.base _ last w hrows hf, trivial, rfl⟩

private theorem launch (h : Anchored R B d) (hb : store.Backs strike R B) : Anchored R B (d.launch store).2 := by
  have hasked := hb.asked _ _ h.rows
  have hlaunched := launched_launch store d
  generalize (d.launch store).2 = d' at hlaunched ⊢
  cases hlaunched with
  | nothing => exact h
  | unanswered hs hw =>
    rw [hw] at hasked
    exact h.same hasked (by simp [Event.entry?]) rfl (.inr rfl) fun _ => hs
  | answered hs hf =>
    have hnone := h.idle hs
    have hstored : Journal.stored (d.journal ++ [.hired]) = d.journal.stored := by simp [Event.entry?]
    rw [hf] at hasked
    refine ⟨?_, ?_, ?_, ?_, fun hn => absurd hn (by simp)⟩
    all_goals rw [hstored]
    · exact hasked
    · exact fun hne => absurd hnone hne
    · exact fun t ht => Value.eq_of_nonNull? ht ▸ h.follows_base hb hnone hf
    · exact h.admitted

private theorem look (hQ : ∀ r, Q r → r.eventType.display?.isSome = true) (hs : Sound Q d) (h : Anchored R B d)
    (hb : store.Backs strike R B) : Anchored R B (d.look store) := by
  rcases Option.eq_none_or_eq_some d.hand with hh | ⟨⟨n, r⟩, hh⟩
  · rw [Desk.look, hh]
    exact h
  have hstored : Journal.stored (d.journal ++ [.running n]) = d.journal.stored := by simp [Event.entry?]
  have hasked := hb.asked _ _ h.rows
  have hlooked := looked_look hQ hs store hh
  generalize d.look store = d' at hlooked ⊢
  cases hlooked with
  | dropped _ => exact h.same h.rows (by simp [Event.entry?, Outcome.entry?]) rfl (.inl rfl) id
  | known _ _ ht =>
    refine ⟨?_, ?_, ?_, ?_, ?_⟩
    all_goals rw [hstored]
    · exact h.rows
    · exact h.known
    · exact h.tip
    · exact fun q hq => Option.some.inj hq ▸ h.tip _ ht
    · exact h.idle
  | answered _ _ ht hf hp =>
    -- The tip is not known, so nothing was stored yet.
    have hnone : d.journal.stored = [] := by
      by_contra hne
      have hknown := h.known hne
      rw [ht] at hknown
      exact absurd hknown (by simp)
    have hfollows := h.follows_base hb hnone hf
    rw [hf] at hasked
    refine ⟨?_, ?_, ?_, ?_, ?_⟩
    all_goals rw [hstored]
    · exact hasked
    · exact fun hne => absurd hnone hne
    · exact fun t htip => Value.eq_of_nonNull? htip ▸ hfollows
    · intro q hq
      rw [← Option.some.inj hq, hp]
      exact hfollows
    · exact h.idle
  | @unanswered f s hw =>
    have hkept : Journal.stored (d.journal ++ [.running n] ++ [.ended n (.failed f)]) = d.journal.stored := by
      rw [Journal.stored_concat, hstored]
      exact List.append_nil _
    rw [hw] at hasked
    exact h.same hasked hkept rfl (.inl rfl) id

private theorem commit (hQ : ∀ r, Q r → r.eventType.display?.isSome = true) (hs : Sound Q d) (h : Anchored R B d)
    (hb : store.Backs strike R B) : Anchored R B (d.commit store) := by
  rcases Option.eq_none_or_eq_some d.appender.admitted with hp | ⟨p, hp⟩
  · rw [Desk.commit, hp]
    exact h
  have hcommitted := committed_commit hQ hs store hp
  generalize d.commit store = d' at hcommitted ⊢
  cases hcommitted with
  | @failed f s hw =>
    have hrows : R s.world d.journal.stored := by
      rcases hw with hw | ⟨dr, g, hg⟩
      · exact hw ▸ h.rows
      · exact hb.refused dr _ g _ _ hg h.rows
    exact h.same hrows (by simp [Event.entry?, Outcome.entry?]) rfl (.inl rfl) id
  | @stored reading hash dr e s hl hc =>
    obtain ⟨⟨id, he⟩, hrows⟩ := hb.created dr _ e _ _ hc h.rows
    obtain ⟨hd, -, hhash⟩ := link_eq_ok hl
    have hprevious : e.previousHash = p.previousHash := by
      rw [he, hd]
      rfl
    have hcurrent : e.currentHash = .text hash := by
      rw [he, hd]
      rfl
    have hsealed : e.IsSealed := ⟨hash, by rw [he]; exact hhash, hcurrent⟩
    have hstored : Journal.stored (d.journal ++ [.ended p.ticket (.stored e)]) = d.journal.stored ++ [e] := by
      simp [Event.entry?, Outcome.entry?]
    obtain ⟨b, hbase, hlinked, htip⟩ := h.admitted p hp
    refine ⟨?_, fun _ => rfl, ?_, fun q hq => absurd hq (by simp), ?_⟩
    all_goals rw [hstored]
    · exact hrows
    · intro t ht
      refine ⟨b, hbase, (Chain.linked_concat _ _ e).mpr ⟨hlinked, hprevious.trans htip, hsealed⟩, ?_⟩
      rw [← Option.some.inj ht, Chain.tip_concat, hcurrent]
    · exact fun hn => absurd ((hs.resting (.inl hn)).2.2.symm.trans hp) (by simp)

theorem invariant (hQ : ∀ r, Q r → r.eventType.display?.isSome = true) (hb : store.Backs strike R B) :
    Invariant store strike Q (Anchored R B) where
  refuse r d _ hr h := by
    rcases refuse_cases hr d with ⟨f, he⟩ | ⟨f, he⟩
    · rwa [he]
    · rw [he]
      exact h.same h.rows rfl rfl (.inr rfl) id
  hire d _ h := by
    exact h.same h.rows (by simp [Desk.hire, Event.entry?]) rfl (.inr rfl) fun hn => absurd hn (by simp [Desk.hire])
  launch d _ h := h.launch hb
  enqueue r d _ h := h.same h.rows (by simp [Desk.enqueue, Event.entry?]) rfl (.inr rfl) id
  shut d _ h := h.same h.rows (by simp [Desk.shut, Event.entry?]) rfl (.inr rfl) id
  mark d _ h := h.same h.rows rfl rfl (.inr rfl) id
  cancel n d _ h := by
    rw [Desk.cancel, Appender.cancel]
    split
    · exact h.same h.rows rfl rfl (.inr rfl) id
    · exact h
    · exact h
  outage o d _ h := h.same (hb.struck o _ _ h.rows) rfl rfl (.inr rfl) id
  take d _ h := by
    have htaken := d.taken_take
    generalize d.take = d' at htaken ⊢
    cases htaken with
    | nothing _ => exact h
    | stop _ _ => exact h.same h.rows rfl rfl (.inr rfl) id
    | request _ _ => exact h.same h.rows (by simp [Event.entry?]) rfl (.inr rfl) id
  look d hs h := h.look hQ hs hb
  commit d hs h := h.commit hQ hs hb

end Anchored

end Desk

namespace Handle

theorem exists_id_of_create (h : Handle) {d : Draft} {s s' : Site} {e : Entry}
    (hc : h.store.create d s = (.ok e, s')) : ∃ id, e = d.withId id := by
  have he : (h.store.create d s).1 = .ok e := congrArg Prod.fst hc
  cases h with
  | memory =>
    exact ⟨_, (Memory.create_ok (m := s.memory) he).1⟩
  | file path =>
    have he : (FileLog.create path d s.files).1 = .ok e := he
    refine ⟨.text s.files.ids.next, ?_⟩
    rw [FileLog.create] at he
    dsimp only at he
    split at he
    · exact absurd he (by simp)
    · split at he
      · exact (Except.ok.inj he).symm
      · exact absurd he (by simp)
  | objects log =>
    have he : (log.create d s.objects).1 = .ok e := he
    refine ⟨.text s.objects.ids.next, ?_⟩
    rw [ObjectLog.create] at he
    dsimp only at he
    split at he
    · exact absurd he (by simp)
    · rw [ObjectLog.attempt] at he
      dsimp only at he
      split at he
      · rename_i hput
        generalize (ObjectService.put _ _ _ _).1 = put at hput
        cases put with
        | error f => exact absurd hput (by simp [Except.map])
        | ok done =>
          obtain rfl := Except.ok.inj hput
          exact (Except.ok.inj he).symm
      · exact absurd he (by simp)
      · exact absurd he (by simp)

/-- Whatever a store does, its entries are linked. -/
theorem backs {S : Type} (h : Handle) (strike : S → Site → Site) :
    h.store.Backs strike (fun _ _ => True) (fun _ => True) where
  created _ _ _ _ _ hc _ := ⟨h.exists_id_of_create hc, trivial⟩
  refused _ _ _ _ _ _ _ := trivial
  asked _ _ _ := trivial
  struck _ _ _ _ := trivial
  base _ _ _ _ _ := trivial

/-- A store in memory adds the entries to its rows, and the first one follows the last row that there was. -/
theorem backs_memory {S : Type} {strike : S → Site → Site}
    (hs : ∀ o s, (strike o s).memory.entries = s.memory.entries) (old : List Entry) :
    memory.store.Backs strike (fun s es => s.memory.entries = old ++ es)
      (fun b => ∀ fs, Ordered.sort old = .ok fs → b = Chain.expectedAfter fs.getLast?) where
  created d w e w' es hc hw := by
    refine ⟨memory.exists_id_of_create hc, ?_⟩
    have hrows := (Memory.create_ok (m := w.memory) (show (Memory.create d w.memory).1 = .ok e from congrArg Prod.fst hc)).2
    have hw' : w'.memory = (Memory.create d w.memory).2 := congrArg (fun out => out.2.memory) hc.symm
    rw [hw', hrows, hw, List.append_assoc]
  refused d w f w' es hc hw := by
    have hrows := Memory.create_error (m := w.memory) (show (Memory.create d w.memory).1 = .error f from congrArg Prod.fst hc)
    have hw' : w'.memory = (Memory.create d w.memory).2 := congrArg (fun out => out.2.memory) hc.symm
    rw [hw', hrows, hw]
  asked w es hw := (Memory.reading_entries _ w.memory).trans hw
  struck o w es hw := (hs o w).trans hw
  base w last w' hw hf := by
    intro fs hsort
    have hread : (Memory.reading (fun es => .ok es.getLast?) w.memory).1 = .ok last := congrArg Prod.fst hf
    rw [Memory.reading, hw, List.append_nil, hsort] at hread
    split at hread
    · exact absurd hread (by simp)
    · rw [Except.ok.inj hread]

end Handle

end AuditTrail
