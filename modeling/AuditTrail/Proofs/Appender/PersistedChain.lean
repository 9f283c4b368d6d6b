import AuditTrail.Proofs.Appender.Tickets
import AuditTrail.Proofs.Chain.Verification

/-!
# What appenders write down

Appenders take over from each other on a store that writes lines down and reads them back (`Chronicle`). What is read
back is not what was committed: instants are cut to the millisecond, and details change their form. Yet the entries
read back stay linked and in the order in which they were committed, and an appender that knows a tip knows the last
of them, and an instant that is not before it (`Appender.Follows`). The entries written down are those that were
acknowledged, by the appender at work and by those before it (`Session.standing_run`).
-/

namespace AuditTrail

open FileLog (Line)

namespace Clock

/-- Every reading that a clock will ever give has a property. -/
def Gives (p : Instant → Prop) (c : Clock) : Prop := ∀ n t, Except.ok t ∈ c.readings n → p t

variable {p : Instant → Prop} {c : Clock}

theorem Gives.now (h : c.Gives p) {t : Instant} (ht : c.now.1 = .ok t) : p t :=
  h 1 t (by rw [readings, ht]; exact List.mem_cons_self)

theorem Gives.later (h : c.Gives p) : c.now.2.Gives p := fun n t ht =>
  h (n + 1) t (List.mem_cons_of_mem _ ht)

theorem gives_scripted {t : Instant} (h : p t) : (scripted (.ok t) []).Gives p := by
  intro n
  induction n with
  | zero => exact fun u hu => absurd hu List.not_mem_nil
  | succ n ih =>
    intro u hu
    rcases List.mem_cons.mp hu with he | hm
    · exact Except.ok.inj he ▸ h
    · exact ih u hm

end Clock

/-- If an aware instant has a reading in UTC, it is among given ones. -/
def Instant.Fits (good : Nat → Prop) (t : Instant) : Prop :=
  t.isAware = true → ∀ u, t.toUtc = .ok u → good u.wall

theorem Instant.fits_of_offset {good : Nat → Prop} {t : Instant} (ht : t.offset = some 0) (hg : good t.wall) :
    t.Fits good := by
  intro _ u hu
  rw [toUtc_of_offset ht] at hu
  exact Except.ok.inj hu ▸ hg

/-- A store writes lines down. It finds the last entry as it is read back, and a creation of an entry after all
others adds a line; either may fail and then leaves the lines as they are, and so do outages. The instants that it
takes, as readings in UTC, are closed under a millisecond more and under being cut to the millisecond. -/
structure Chronicle {W S : Type} (store : Store W) (strike : S → W → W) (good : Nat → Prop)
    (holds : List Line → W → Prop) : Prop where
  later : ∀ wall, good wall → good (wall + Duration.perMilli)
  cut : ∀ wall, good wall → good (wall - wall % Duration.perMilli)
  sorted : ∀ {rows w}, holds rows w → Ordered.IsSorted (rows.map Line.shown)
  taken : ∀ {rows w}, holds rows w → ∀ r ∈ rows, good r.utc.wall
  strike : ∀ {rows w} (o : S), holds rows w → holds rows (strike o w)
  findLast : ∀ {rows w}, holds rows w → holds rows (store.findLast w).2 ∧
    ((∃ f, (store.findLast w).1 = .error f) ∨ (store.findLast w).1 = .ok (rows.map Line.shown).getLast?)
  create : ∀ {rows w}, holds rows w → ∀ d : Draft, d.createdAt.Fits good →
    (∀ r ∈ rows, r.shown.createdAt.moment < d.createdAt.moment) →
    ((∃ f, (store.create d w).1 = .error f) ∧ holds rows (store.create d w).2) ∨
      ∃ (r : Line) (id : Text), r.entry = d.withId (.text id) ∧ (store.create d w).1 = .ok r.entry ∧
        holds (rows ++ [r]) (store.create d w).2

namespace FileLog.Line

private theorem isSealed_shown {r : Line} (ht : r.entry.IsTextual) (h : r.entry.IsSealed) : r.shown.IsSealed := by
  obtain ⟨hash, hr, hc⟩ := h
  exact ⟨hash, (recomputed_shown ht).trans hr, (matches_shown ht).currentHash.trans hc⟩

end FileLog.Line

namespace Appender

variable {W S : Type} {store : Store W} {strike : S → W → W} {good : Nat → Prop} {holds : List Line → W → Prop}

/-- The lines read back are a chain. An appender that knows a tip knows the end of it, and its last instant is not
before any of them. -/
structure Follows (good : Nat → Prop) (rows : List Line) (a : Appender) : Prop where
  linked : Chain.Linked (.text genesisHash) (rows.map Line.shown)
  tip : ∀ t, a.tip = some t → t = Chain.tip (.text genesisHash) (rows.map Line.shown) ∧
    ∀ r ∈ rows, ∃ l, a.lastAt = some l ∧ r.shown.createdAt.moment ≤ l.moment
  lastAt : ∀ l, a.lastAt = some l → ∃ u, l.toUtc = .ok u ∧ good u.wall
  admitted : ∀ p, a.admitted = some p → a.tip = some p.previousHash

namespace Follows

variable {a b : Appender} {rows : List Line}

private theorem of_samePlace (h : Follows good rows a) (hs : SamePlace b a) : Follows good rows b := by
  obtain ⟨ht, hl, hp⟩ := hs
  refine ⟨h.linked, ?_, ?_, ?_⟩
  · rw [ht, hl]
    exact h.tip
  · rw [hl]
    exact h.lastAt
  · rw [ht, hp]
    exact h.admitted

private theorem emptyHanded (h : Follows good rows a) : Follows good rows { a with admitted := none } :=
  ⟨h.linked, h.tip, h.lastAt, fun _ hp => absurd hp (by simp)⟩

private theorem takeOver (h : Follows good rows a) : Follows good rows .fresh :=
  ⟨h.linked, fun _ ht => absurd ht (by simp [fresh]), fun _ hl => absurd hl (by simp [fresh]),
    fun _ hp => absurd hp (by simp [fresh])⟩

private theorem exists_tip (h : Follows good rows a) {t : Value} (ht : a.tip = some t) : ∃ s, t = .text s := by
  obtain ⟨s, hs⟩ := Chain.exists_tip_eq_text h.linked
  exact ⟨s, (h.tip t ht).1.trans hs⟩

private theorem begin (h : Follows good [] a) :
    Follows good [] { a with tip := some (.text genesisHash), lastAt := none } where
  linked := h.linked
  tip _ ht := ⟨(Option.some.inj ht).symm, fun _ hr => absurd hr List.not_mem_nil⟩
  lastAt _ hl := absurd hl (by simp)
  admitted p hp := congrArg some (h.tip _ (h.admitted p hp)).1.symm

/-- The last line, as it is read back, tells the tip and the last instant. -/
private theorem resume {front : List Line} {r : Line} (h : Follows good (front ++ [r]) a)
    (hs : Ordered.IsSorted ((front ++ [r]).map Line.shown)) (hg : good r.shown.createdAt.wall) :
    ∃ hash : Text, r.shown.currentHash = .text hash ∧
      Follows good (front ++ [r]) { a with tip := some (.text hash), lastAt := some r.shown.createdAt } := by
  rw [List.map_append, List.map_singleton] at hs
  have htip := Chain.tip_concat (.text genesisHash) (front.map Line.shown) r.shown
  rw [← List.map_singleton, ← List.map_append] at htip
  obtain ⟨hash, -, hcur⟩ := Chain.isSealed_of_mem h.linked (List.mem_map_of_mem List.mem_concat_self)
  rw [hcur] at htip
  refine ⟨hash, hcur, h.linked, ?_, ?_, ?_⟩
  · intro t ht
    refine ⟨(Option.some.inj ht).symm.trans htip.symm, ?_⟩
    intro q hq
    refine ⟨_, rfl, ?_⟩
    rcases List.mem_append.mp hq with hm | hm
    · exact (List.pairwise_append.mp hs).2.2 _ (List.mem_map_of_mem hm) _ List.mem_cons_self
    · rw [List.mem_singleton.mp hm]
  · intro l hl
    rw [← Option.some.inj hl]
    exact ⟨_, Instant.toUtc_of_offset r.offset_shown, hg⟩
  · intro p hp
    rw [(h.tip _ (h.admitted p hp)).1, htip]

end Follows

private theorem follows_loadTip (C : Chronicle store strike good holds) {a : Appender} {s : Scene W} {rows : List Line}
    (hw : holds rows s.world) (h : Follows good rows a) :
    ∃ b s', holds rows s'.world ∧ Follows good rows b ∧ SameBooks b a ∧ s'.clock = s.clock ∧
      ((∃ f, loadTip store (a, s) = (.error f, b, s')) ∨
        ∃ t, loadTip store (a, s) = (.ok t, b, s') ∧ b.tip = some t) := by
  obtain ⟨hw', hc⟩ := C.findLast hw
  rw [loadTip]
  cases hf : store.findLast s.world with
  | mk found w =>
    rw [hf] at hw' hc
    rcases hc with ⟨f, rfl⟩ | rfl
    · exact ⟨a, { s with world := w }, hw', h, ⟨rfl, rfl, rfl⟩, rfl, .inl ⟨f, rfl⟩⟩
    · rcases List.eq_nil_or_concat rows with rfl | ⟨front, r, rfl⟩
      · exact ⟨_, { s with world := w }, hw', h.begin, ⟨rfl, rfl, rfl⟩, rfl, .inr ⟨_, rfl, rfl⟩⟩
      · rw [List.concat_eq_append] at h hw' ⊢
        have hlast : ((front ++ [r]).map Line.shown).getLast? = some r.shown := by
          rw [List.map_append, List.map_singleton, List.getLast?_concat]
        have hgood : good r.shown.createdAt.wall := C.cut _ (C.taken hw' r List.mem_concat_self)
        obtain ⟨hash, hcur, hresumed⟩ := h.resume (C.sorted hw') hgood
        simp only [hlast, hcur]
        exact ⟨_, { s with world := w }, hw', hresumed, ⟨rfl, rfl, rfl⟩, rfl, .inr ⟨_, rfl, rfl⟩⟩

private theorem fits_of_stampAfter (hlater : ∀ wall, good wall → good (wall + Duration.perMilli))
    {last : Option Instant} {reading t : Instant} (h : stampAfter last reading = .ok t) (hr : reading.Fits good)
    (hl : ∀ l, last = some l → ∃ u, l.toUtc = .ok u ∧ good u.wall) : t.Fits good := by
  cases last with
  | none =>
    obtain rfl : reading = t := Except.ok.inj h
    exact hr
  | some l =>
    rw [stampAfter, Fault.bind_eq_ok_iff] at h
    obtain ⟨late, -, ht⟩ := h
    cases late with
    | false =>
      obtain rfl : reading = t := Except.ok.inj ht
      exact hr
    | true =>
      intro _ u hu
      obtain ⟨v, hv, hg⟩ := hl l rfl
      rw [if_pos rfl] at ht
      have hm := Instant.moment_of_shift ht
      have hul := (Instant.ofWall_eq_ok_iff.mp hu).1
      have hvl := (Instant.ofWall_eq_ok_iff.mp hv).1
      have he : u.wall = v.wall + Duration.perMilli := by
        simp only [Duration.perMilli] at hm ⊢
        omega
      rw [he]
      exact hlater _ hg

private theorem follows_store {a : Appender} {rows : List Line} (h : Follows good rows a) {p : Admitted}
    (ha : a.admitted = some p) (hp : p.request.IsPlain) {reading : Instant} {hash : Text} {d : Draft}
    (hl : link p a.lastAt reading = .ok (hash, d)) {r : Line} {id : Text} (he : r.entry = d.withId (.text id))
    (hg : good r.utc.wall) (hlt : ∀ q ∈ rows, q.shown.createdAt.moment < d.createdAt.moment) :
    Follows good (rows ++ [r])
      { a with admitted := none, tip := some (.text hash), lastAt := some d.createdAt } := by
  obtain ⟨hd, -, hhash⟩ := link_eq_ok hl
  have htip := h.admitted p ha
  obtain ⟨previous, hprevious⟩ := h.exists_tip htip
  have hcurrent : r.entry.currentHash = .text hash := by
    rw [he, hd]
    rfl
  have hlink : r.entry.previousHash = p.previousHash := by
    rw [he, hd]
    rfl
  have hat : r.entry.createdAt = d.createdAt := by
    rw [he]
    rfl
  have htext : p.previousHash.isText = true := by
    rw [hprevious]
    rfl
  have htextual : r.entry.IsTextual := by
    rw [he, hd]
    exact ⟨rfl, hp.eventType, hp.source, hp.correlationId, htext, rfl, hp.uniqueKeys⟩
  have hsealed : r.entry.IsSealed := ⟨hash, by rw [he]; exact hhash, hcurrent⟩
  have hmatch := FileLog.Line.matches_shown htextual
  refine ⟨?_, ?_, ?_, fun _ hq => absurd hq (by simp)⟩
  · rw [List.map_append, List.map_singleton, Chain.linked_concat]
    refine ⟨h.linked, ?_, FileLog.Line.isSealed_shown htextual hsealed⟩
    exact (hmatch.previousHash.trans hlink).trans (h.tip _ htip).1
  · intro t ht
    refine ⟨?_, ?_⟩
    · rw [← Option.some.inj ht, List.map_append, List.map_singleton, Chain.tip_concat, hmatch.currentHash, hcurrent]
    · intro q hq
      refine ⟨_, rfl, ?_⟩
      rcases List.mem_append.mp hq with hm | hm
      · exact Int.le_of_lt (hlt q hm)
      · rw [List.mem_singleton.mp hm, ← hat]
        exact r.moment_shown_le
  · intro l hl
    rw [← Option.some.inj hl, ← hat]
    exact ⟨r.utc, r.toUtc_eq, hg⟩

/-- An appender stands on the lines of its store: its clock gives instants that the store takes, its books are in
order, it follows the lines, and the lines are those of the entries of a history and of the tickets it acknowledged. -/
structure Standing (good : Nat → Prop) (holds : List Line → W → Prop) (history : List Entry) (a : Appender)
    (s : Scene W) : Prop where
  clock : s.clock.Gives (Instant.Fits good)
  books : Books a
  chain : ∃ rows, holds rows s.world ∧ Follows good rows a ∧
    (rows.map Line.entry).Perm (history ++ a.acknowledged)

namespace Standing

variable {history : List Entry} {a b : Appender} {s t : Scene W}

private theorem of_same (h : Standing good holds history a s) (hplace : SamePlace b a) (hbooks : Books b)
    (hperm : b.acknowledged.Perm a.acknowledged) (hclock : t.clock = s.clock) (hworld : t.world = s.world) :
    Standing good holds history b t := by
  obtain ⟨rows, hw, hf, hp⟩ := h.chain
  refine ⟨?_, hbooks, rows, ?_, hf.of_samePlace hplace, hp.trans (hperm.symm.append_left history)⟩
  · rw [hclock]
    exact h.clock
  · rw [hworld]
    exact hw

private theorem emptyHanded (h : Standing good holds history a s) :
    Standing good holds history { a with admitted := none } s := by
  obtain ⟨rows, hw, hf, hp⟩ := h.chain
  exact ⟨h.clock, h.books.emptyHanded, rows, hw, hf.emptyHanded, hp⟩

private theorem fail (h : Standing good holds history a s) (f : Fault) {p : Admitted}
    (hp : a.outcomes[p.ticket]? = some .running) :
    Standing good holds history (failAdmitted f p a s).1 (failAdmitted f p a s).2 := by
  obtain ⟨hplace, hworld⟩ := samePlace_failAdmitted f p a s
  obtain ⟨hbooks, hperm, hclock⟩ := books_failAdmitted f s h.books hp
  exact h.emptyHanded.of_same hplace hbooks hperm hclock hworld

private theorem loadTip (C : Chronicle store strike good holds) (h : Standing good holds history a s) :
    ∃ b s', Standing good holds history b s' ∧ SameBooks b a ∧
      ((∃ f, Appender.loadTip store (a, s) = (.error f, b, s')) ∨
        ∃ t, Appender.loadTip store (a, s) = (.ok t, b, s') ∧ b.tip = some t) := by
  obtain ⟨rows, hw, hf, hp⟩ := h.chain
  obtain ⟨b, s', hw', hf', hsame, hclock, hl⟩ := follows_loadTip C hw hf
  refine ⟨b, s', ⟨?_, h.books.of_same hsame, rows, hw', hf', ?_⟩, hsame, hl⟩
  · rw [hclock]
    exact h.clock
  · rw [hsame.acknowledged]
    exact hp

private theorem hold (h : Standing good holds history a s) {p : Admitted} (ht : a.tip = some p.previousHash)
    (hr : a.outcomes[p.ticket]? = some .running) (hp : p.request.IsPlain) :
    Standing good holds history { a with admitted := some p } s := by
  obtain ⟨rows, hw, hf, hperm⟩ := h.chain
  refine ⟨h.clock, books_hold h.books hr hp, rows, hw, ⟨hf.linked, hf.tip, hf.lastAt, ?_⟩, hperm⟩
  intro q hq
  rw [← Option.some.inj hq]
  exact ht

private theorem takeNext (C : Chronicle store strike good holds) (h : Standing good holds history a s) :
    Standing good holds history (Appender.takeNext store a s).1 (Appender.takeNext store a s).2 := by
  rw [Appender.takeNext]
  split
  · exact h
  · rename_i rest hq
    have hbooks := (books_dequeue hq h.books).1
    exact h.of_same ⟨rfl, rfl, rfl⟩ (hbooks.of_same ⟨rfl, rfl, rfl⟩) (.refl _) rfl rfl
  · rename_i ticket r rest hq
    obtain ⟨hbooks, hticket⟩ := books_dequeue hq h.books
    obtain ⟨hn, hplain, hwait, hother⟩ := hticket ticket r rfl
    have hd : Standing good holds history { a with queue := rest } s :=
      h.of_same ⟨rfl, rfl, rfl⟩ hbooks (.refl _) rfl rfl
    dsimp only
    split
    · exact hd
    · rename_i hnot
      have hpending : a.outcomes[ticket]? = some .pending := hwait.resolve_right hnot
      have hrun : (a.outcomes.set ticket .running)[ticket]? = some .running :=
        List.getElem?_set_self (List.getElem?_eq_some_iff.mp hpending).1
      have hr : Standing good holds history (settleTicket ticket .running { a with queue := rest }) s :=
        hd.of_same ⟨rfl, rfl, rfl⟩ (hbooks.settle hn hother .running)
          (perm_acknowledged_settleTicket (a := { a with queue := rest }) hpending rfl .running) rfl rfl
      have hrunning : (settleTicket ticket .running { a with queue := rest }).outcomes[ticket]? = some .running := hrun
      -- Whatever the tickets are, the tip alone decides whether the store is asked.
      generalize settleTicket ticket .running { a with queue := rest } = c at hr hrunning ⊢
      obtain ⟨tip, lastAt, queue, admitted, outcomes, started, stopped, closed⟩ := c
      cases tip with
      | some t => exact hr.hold (p := ⟨ticket, r, t, s.watch.metrics.running⟩) rfl hrunning hplain
      | none =>
        obtain ⟨b, s', hb, hsame, ⟨f, hl⟩ | ⟨t, hl, htip⟩⟩ := hr.loadTip C
        · simp only [hl]
          apply hb.fail f
          rw [hsame.outcomes]
          exact hrunning
        · simp only [hl]
          apply hb.hold htip _ hplain
          rw [hsame.outcomes]
          exact hrunning

/-- A commit adds the line of an entry that it acknowledges, or keeps the lines. -/
private theorem commit (C : Chronicle store strike good holds) {p : Admitted} (ha : a.admitted = some p)
    (h : Standing good holds history a s) :
    Standing good holds history (Appender.commit store p a s).1 (Appender.commit store p a s).2 := by
  obtain ⟨rows, hw, hf, hperm⟩ := h.chain
  have hrun := h.books.running p ha
  have hbound : ∀ {reading : Instant} {hash : Text} {d : Draft}, s.clock.now.1 = .ok reading →
      link p a.lastAt reading = .ok (hash, d) → d.createdAt.Fits good ∧
        ∀ q ∈ rows, q.shown.createdAt.moment < d.createdAt.moment := by
    intro reading hash d hn hl
    obtain ⟨-, hstamp, -⟩ := link_eq_ok hl
    refine ⟨fits_of_stampAfter C.later hstamp (h.clock.now hn) hf.lastAt, ?_⟩
    intro q hq
    obtain ⟨l, hlast, hle⟩ := (hf.tip _ (hf.admitted p ha)).2 q hq
    have := lt_of_stampAfter hstamp hlast
    omega
  rcases commit_eq store p a s with ⟨f, w, hc, hstore⟩ | ⟨reading, hash, d, e, w, hn, hl, hstore, hc⟩
  · have hw' : holds rows w := by
      rcases hstore with rfl | ⟨reading, hash, d, hn, hl, hstore⟩
      · exact hw
      · obtain ⟨hfits, hlt⟩ := hbound hn hl
        have hcreate := C.create hw d hfits hlt
        rw [hstore] at hcreate
        rcases hcreate with ⟨-, hw'⟩ | ⟨r, -, -, hok, -⟩
        · exact hw'
        · exact absurd hok (by simp)
    rw [hc]
    exact fail ⟨h.clock.later, h.books, rows, hw', hf, hperm⟩ f hrun
  · obtain ⟨hfits, hlt⟩ := hbound hn hl
    have hcreate := C.create hw d hfits hlt
    rw [hstore] at hcreate
    rcases hcreate with ⟨⟨f, hf⟩, -⟩ | ⟨r, id, he, hok, hw'⟩
    · exact absurd hf (by simp)
    · obtain rfl : e = r.entry := Except.ok.inj hok
      have hgood : good r.utc.wall := C.taken hw' r (List.mem_append_right _ List.mem_cons_self)
      obtain ⟨hbooks, hack⟩ :=
        books_storeAdmitted { s with clock := s.clock.now.2, world := w } h.books hrun d hash r.entry
      have hfollows := follows_store hf ha (h.books.plainAdmitted p ha) hl he hgood hlt
      rw [hc]
      refine ⟨h.clock.later, hbooks, rows ++ [r], hw', hfollows.of_samePlace ⟨rfl, rfl, rfl⟩, ?_⟩
      rw [List.map_append, List.map_singleton]
      have hadd := (List.perm_append_singleton r.entry _).trans (hperm.cons r.entry)
      exact (hadd.trans List.perm_middle.symm).trans (hack.symm.append_left history)

private theorem work (C : Chronicle store strike good holds) (held : Bool) (n : Nat)
    (h : Standing good holds history a s) :
    Standing good holds history (Appender.work store held n a s).1 (Appender.work store held n a s).2 :=
  work_induction (P := Standing good holds history) (fun _ _ h => h.takeNext C)
    (fun _ _ _ ha h => h.commit C ha) n h

private theorem start (C : Chronicle store strike good holds) (h : Standing good holds history a s) :
    Standing good holds history (Appender.start store (a, s)).2.1 (Appender.start store (a, s)).2.2 := by
  rw [Appender.start]
  split
  · exact h
  · split
    · exact h
    · obtain ⟨b, s', hb, -, ⟨f, hl⟩ | ⟨t, hl, -⟩⟩ := h.loadTip C
      · rw [hl]
        exact hb.of_same ⟨rfl, rfl, rfl⟩ (hb.books.of_same ⟨rfl, rfl, rfl⟩) (.refl _) rfl rfl
      · rw [hl]
        exact hb.of_same ⟨rfl, rfl, rfl⟩ (hb.books.of_same ⟨rfl, rfl, rfl⟩) (.refl _) rfl rfl

private theorem close (C : Chronicle store strike good holds) (held : Bool) (timeout : Option Int)
    (h : Standing good holds history a s) : Standing good holds history
      (Appender.close store held timeout (a, s)).2.1 (Appender.close store held timeout (a, s)).2.2 := by
  refine close_induction (P := Standing good holds history) ?_ ?_ ?_ (fun n _ _ h => h.work C held n) timeout h
  · exact fun a s h => h.of_same ⟨rfl, rfl, rfl⟩ (h.books.of_same ⟨rfl, rfl, rfl⟩) (.refl _) rfl rfl
  · exact fun a s h => h.of_same ⟨rfl, rfl, rfl⟩ h.books.stop (.refl _) rfl rfl
  · exact fun a s watch h => h.of_same (.refl a) h.books (.refl _) rfl rfl

end Standing

end Appender

/-- The requests of a move are plain, and its clock gives instants that the store takes. -/
def Move.IsPlain {S : Type} (good : Nat → Prop) : Move S → Prop
  | .submit r => r.IsPlain
  | .replace (some clock) => clock.Gives (Instant.Fits good)
  | _ => True

namespace Session

open Appender

variable {W S : Type} {store : Store W} {strike : S → W → W} {good : Nat → Prop} {holds : List Line → W → Prop}

/-- The entries that the appender acknowledged, if it is replaced. -/
def retired (s : Session W) : Move S → List Entry
  | .replace _ => s.appender.acknowledged
  | _ => []

/-- The entries that are acknowledged in a run: by the appenders that are replaced, and by the last one. -/
def acknowledged (store : Store W) (strike : S → W → W) : List (Move S) → Session W → List Entry
  | [], s => s.appender.acknowledged
  | m :: rest, s => s.retired m ++ acknowledged store strike rest (step store strike m s)

/-- Every move keeps an appender standing, and a fresh one stands on what those before it acknowledged. -/
private theorem standing_step (C : Chronicle store strike good holds) {history : List Entry} {m : Move S}
    (hm : m.IsPlain good) {s : Session W} (h : Standing good holds history s.appender s.scene) :
    Standing good holds (history ++ s.retired m) (step store strike m s).appender (step store strike m s).scene := by
  have keep : ∀ {b : Appender} {t : Scene W}, Standing good holds history b t →
      Standing good holds (history ++ []) b t := fun hb => by rwa [List.append_nil]
  cases m with
  | replace clock =>
    obtain ⟨rows, hw, hf, hperm⟩ := h.chain
    refine ⟨?_, .fresh, rows, hw, hf.takeOver, ?_⟩
    · cases clock with
      | none => exact h.clock
      | some c => exact hm
    · exact hperm.trans (.of_eq (List.append_nil _).symm)
  | start => exact keep (h.start C)
  | submit r =>
    obtain ⟨hplace, hworld⟩ := samePlace_submit r s.appender s.scene
    obtain ⟨hbooks, hack, hclock⟩ := books_submit hm s.scene h.books
    exact keep (h.of_same hplace hbooks (.of_eq hack) hclock hworld)
  | cancel ticket =>
    obtain ⟨hbooks, hperm⟩ := books_cancel ticket h.books
    exact keep (h.of_same (samePlace_cancel ticket s.appender) hbooks hperm rfl rfl)
  | work n => exact keep (h.work C false n)
  | close held timeout => exact keep (h.close C held timeout)
  | outage o =>
    obtain ⟨rows, hw, hf, hperm⟩ := h.chain
    exact keep ⟨h.clock, h.books, rows, C.strike o hw, hf, hperm⟩

/-- After a run the store holds linked lines, those of the entries that were acknowledged. -/
theorem standing_run (C : Chronicle store strike good holds) (moves : List (Move S)) :
    ∀ {history : List Entry} {s : Session W}, (∀ m ∈ moves, m.IsPlain good) →
      Standing good holds history s.appender s.scene →
      ∃ rows, holds rows (run store strike moves s).scene.world ∧
        Chain.Linked (.text genesisHash) (rows.map Line.shown) ∧
        (rows.map Line.entry).Perm (history ++ acknowledged store strike moves s) := by
  induction moves with
  | nil =>
    intro history s _ h
    obtain ⟨rows, hw, hf, hperm⟩ := h.chain
    exact ⟨rows, hw, hf.linked, hperm⟩
  | cons m rest ih =>
    intro history s hm h
    have hrest := ih (fun n hn => hm n (List.mem_cons_of_mem m hn)) (standing_step C (hm m List.mem_cons_self) h)
    rw [List.append_assoc] at hrest
    exact hrest

variable (holds) in
theorem standing_fresh {w : W} (hw : holds [] w) {clock : Clock} (hc : clock.Gives (Instant.Fits good))
    (watch : Watch) : Standing good holds [] (fresh w clock watch).appender (fresh w clock watch).scene := by
  refine ⟨hc, .fresh, [], hw, ⟨trivial, ?_, ?_, ?_⟩, .refl _⟩
  · exact fun _ ht => absurd ht (by simp [fresh, Appender.fresh])
  · exact fun _ hl => absurd hl (by simp [fresh, Appender.fresh])
  · exact fun _ hp => absurd hp (by simp [fresh, Appender.fresh])

end Session

end AuditTrail
