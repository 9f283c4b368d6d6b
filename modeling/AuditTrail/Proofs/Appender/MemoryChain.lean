import AuditTrail.Proofs.Appender.Session
import AuditTrail.Proofs.Chain.Verification

/-!
# What appenders write in memory

Appenders take over from each other on one store in memory. Whatever their producers, their clocks
and the outages of the store do, the rows stay linked and their moments increase, because an
appender that knows a tip knows the store's last row (`Appender.Continues`). Only a commit adds a
row, and everything else keeps the rows.
-/

namespace AuditTrail

namespace Memory

/-- The next calls fail with the given faults, and those after them are carried out. -/
def strike (faults : List Fault) (m : Memory) : Memory := { m with failures := faults }

private theorem findLast_cases {m : Memory} (ha : ∀ e ∈ m.entries, e.createdAt.isAware = true)
    (hs : Ordered.IsSorted m.entries) :
    (∃ f, (store.findLast m).1 = .error f) ∨ (store.findLast m).1 = .ok m.entries.getLast? := by
  simp only [store, reading]
  cases m.failures with
  | cons f later => exact .inl ⟨f, rfl⟩
  | nil =>
    rw [Ordered.sort_of_isSorted ha hs]
    exact .inr rfl

end Memory

namespace Chain

def IsIncreasing (es : List Entry) : Prop := es.Pairwise fun a b => a.createdAt.moment < b.createdAt.moment

theorem IsIncreasing.isSorted {es : List Entry} (h : IsIncreasing es) : Ordered.IsSorted es :=
  h.imp Int.le_of_lt

theorem isAware_of_linked {expected : Value} {es : List Entry} (h : Linked expected es) :
    ∀ e ∈ es, e.createdAt.isAware = true := fun _ he => (isSealed_of_mem h he).isAware

private theorem IsIncreasing.concat {es : List Entry} (h : IsIncreasing es) {e : Entry}
    (he : ∀ l, es.getLast? = some l → l.createdAt.moment < e.createdAt.moment) :
    IsIncreasing (es ++ [e]) := by
  rcases List.eq_nil_or_concat es with rfl | ⟨front, l, rfl⟩
  · exact List.pairwise_singleton _ e
  · rw [List.concat_eq_append] at h he ⊢
    have hl : l.createdAt.moment < e.createdAt.moment := he l List.getLast?_concat
    refine List.pairwise_append.mpr ⟨h, List.pairwise_singleton _ e, ?_⟩
    intro f hf g hg
    rw [List.mem_singleton.mp hg]
    rcases List.mem_append.mp hf with hm | hm
    · have := (List.pairwise_append.mp h).2.2 f hm l (List.mem_singleton.mpr rfl)
      omega
    · rw [List.mem_singleton.mp hm]
      exact hl

end Chain

namespace Appender

/-- The rows are a chain, and an appender that knows a tip knows the end of it. -/
structure Continues (a : Appender) (es : List Entry) : Prop where
  linked : Chain.Linked (.text genesisHash) es
  increasing : Chain.IsIncreasing es
  tip : ∀ t, a.tip = some t →
    t = Chain.tip (.text genesisHash) es ∧ a.lastAt = es.getLast?.map Entry.createdAt
  admitted : ∀ p, a.admitted = some p → a.tip = some p.previousHash

namespace Continues

variable {a b : Appender} {es : List Entry}

private theorem of_samePlace (h : Continues a es) (hs : SamePlace b a) : Continues b es := by
  obtain ⟨ht, hl, hp⟩ := hs
  refine ⟨h.linked, h.increasing, ?_, ?_⟩
  · rw [ht, hl]
    exact h.tip
  · rw [ht, hp]
    exact h.admitted

private theorem emptyHanded (h : Continues a es) : Continues { a with admitted := none } es :=
  ⟨h.linked, h.increasing, h.tip, fun _ hp => absurd hp (by simp)⟩

theorem takeOver (h : Continues a es) : Continues .fresh es :=
  ⟨h.linked, h.increasing, fun _ ht => absurd ht (by simp [fresh]), fun _ hp => absurd hp (by simp [fresh])⟩

end Continues

/-- An appender in its scene continues the rows of the store in memory. -/
def InStep (a : Appender) (s : Scene Memory) : Prop := Continues a s.world.entries

variable {a : Appender} {s : Scene Memory}

theorem inStep_loadTip (h : InStep a s) :
    ∃ b s', InStep b s' ∧ s'.world.entries = s.world.entries ∧ b.admitted = a.admitted ∧
      ((∃ f, loadTip Memory.store (a, s) = (.error f, b, s')) ∨
        ∃ t, loadTip Memory.store (a, s) = (.ok t, b, s') ∧ b.tip = some t) := by
  have hw : (Memory.store.findLast s.world).2.entries = s.world.entries := Memory.reading_entries _ _
  have hc := Memory.findLast_cases (Chain.isAware_of_linked h.linked) h.increasing.isSorted
  have hg := Chain.tip_genesis s.world.entries
  rw [loadTip]
  cases hf : Memory.store.findLast s.world with
  | mk found w =>
    rw [hf] at hw hc
    rcases hc with ⟨f, rfl⟩ | rfl
    · refine ⟨a, { s with world := w }, ?_, hw, rfl, .inl ⟨f, rfl⟩⟩
      rw [InStep, hw]
      exact h
    · cases hl : s.world.entries.getLast? with
      | none =>
        rw [hl, Chain.expectedAfter] at hg
        refine ⟨_, _, ?_, hw, ?_, .inr ⟨_, rfl, rfl⟩⟩
        · rw [InStep, hw]
          refine ⟨h.linked, h.increasing, ?_, ?_⟩
          · intro t ht
            rw [← Option.some.inj ht, hg, hl]
            exact ⟨rfl, rfl⟩
          · intro p hp
            rw [← hg, (h.tip _ (h.admitted p hp)).1]
        · rfl
      | some e =>
        have he : e ∈ s.world.entries := List.mem_of_getLast? hl
        obtain ⟨hash, -, hc⟩ := Chain.isSealed_of_mem h.linked he
        rw [hl, Chain.expectedAfter] at hg
        refine ⟨_, _, ?_, hw, ?_, .inr ⟨_, rfl, by rw [hc]; rfl⟩⟩
        · rw [InStep, hw]
          refine ⟨h.linked, h.increasing, ?_, ?_⟩
          · intro t ht
            rw [hc] at ht hg
            rw [← Option.some.inj ht, hg, hl]
            exact ⟨rfl, rfl⟩
          · intro p hp
            rw [(h.tip _ (h.admitted p hp)).1, hg, hc]
            rfl
        · rfl

theorem InStep.of_samePlace {b : Appender} {s' : Scene Memory} (h : InStep a s) (hs : SamePlace b a)
    (hw : s'.world.entries = s.world.entries) : InStep b s' := by
  rw [InStep, hw]
  exact Continues.of_samePlace h hs

private theorem inStep_failAdmitted (h : InStep a s) (f : Fault) (p : Admitted) :
    InStep (failAdmitted f p a s).1 (failAdmitted f p a s).2 ∧
      (failAdmitted f p a s).2.world = s.world := by
  obtain ⟨hs, hw⟩ := samePlace_failAdmitted f p a s
  refine ⟨?_, hw⟩
  rw [InStep, hw]
  exact Continues.of_samePlace h.emptyHanded hs

theorem inStep_takeNext (h : InStep a s) :
    InStep (takeNext Memory.store a s).1 (takeNext Memory.store a s).2 ∧
      (takeNext Memory.store a s).2.world.entries = s.world.entries := by
  rw [takeNext]
  split
  · exact ⟨h, rfl⟩
  · exact ⟨h.of_samePlace ⟨rfl, rfl, rfl⟩ rfl, rfl⟩
  · rename_i ticket r rest _
    have hq : InStep { a with queue := rest } s := h.of_samePlace ⟨rfl, rfl, rfl⟩ rfl
    dsimp only
    split
    · exact ⟨hq, rfl⟩
    · have hr : InStep (Appender.settleTicket ticket .running { a with queue := rest }) s :=
        hq.of_samePlace ⟨rfl, rfl, rfl⟩ rfl
      -- Whatever the tickets are, the tip alone decides whether the store is asked.
      generalize Appender.settleTicket ticket .running { a with queue := rest } = c at hr ⊢
      obtain ⟨tip, lastAt, queue, admitted, outcomes, started, stopped, closed⟩ := c
      cases tip with
      | some t =>
        refine ⟨⟨hr.linked, hr.increasing, hr.tip, ?_⟩, rfl⟩
        intro p hp
        rw [← Option.some.inj hp]
      | none =>
        obtain ⟨b, s', hb, he, -, ⟨f, hl⟩ | ⟨t, hl, htip⟩⟩ := inStep_loadTip hr
        · simp only [hl]
          obtain ⟨hf, hw⟩ := inStep_failAdmitted hb f ⟨ticket, r, .null, s.watch.metrics.running⟩
          exact ⟨hf, by rw [hw, he]⟩
        · simp only [hl]
          refine ⟨⟨hb.linked, hb.increasing, hb.tip, ?_⟩, he⟩
          intro p hp
          rw [← Option.some.inj hp]
          exact htip

/-- A commit adds a row that follows the others, or keeps the rows. -/
theorem inStep_commit {p : Admitted} (ha : a.admitted = some p) (h : InStep a s) :
    InStep (commit Memory.store p a s).1 (commit Memory.store p a s).2 ∧
      s.world.entries <+: (commit Memory.store p a s).2.world.entries := by
  rcases commit_cases Memory.store p a s with
    ⟨f, s', hc, hw⟩ | ⟨reading, hash, d, e, s', hl, hc, hs⟩
  · have he : s'.world.entries = s.world.entries := by
      rcases hw with hw | ⟨d, g, hw⟩
      · rw [hw]
      · have hg : Memory.create d s.world = (.error g, s'.world) := hw
        have := Memory.create_error (congrArg Prod.fst hg)
        rwa [hg] at this
    rw [hc]
    obtain ⟨hf, hk⟩ := inStep_failAdmitted (h.of_samePlace (.refl a) he) f p
    exact ⟨hf, by simp only [hk, he, List.prefix_rfl]⟩
  · obtain ⟨hd, hstamp, hhash⟩ := link_eq_ok hl
    have hg : Memory.create d s.world = (.ok e, s'.world) := hc
    obtain ⟨he, hrows⟩ := Memory.create_ok (congrArg Prod.fst hg)
    rw [hg] at hrows
    obtain ⟨htip, hlast⟩ := h.tip _ (h.admitted p ha)
    have hprev : e.previousHash = p.previousHash := by
      rw [he, hd]
      rfl
    have hcur : e.currentHash = .text hash := by
      rw [he, hd]
      rfl
    have hat : e.createdAt = d.createdAt := by
      rw [he]
      rfl
    have hseal : e.IsSealed := ⟨hash, by rw [he]; exact hhash, hcur⟩
    have hlinked : Chain.Linked (.text genesisHash) (s.world.entries ++ [e]) :=
      (Chain.linked_concat _ _ e).mpr ⟨h.linked, hprev.trans htip, hseal⟩
    have hinc : Chain.IsIncreasing (s.world.entries ++ [e]) := by
      refine h.increasing.concat ?_
      intro l hlq
      rw [hat]
      exact lt_of_stampAfter hstamp (by rw [hlast, hlq]; rfl)
    rw [← hrows] at hlinked hinc
    rw [hs, storeAdmitted]
    refine ⟨⟨hlinked, hinc, ?_, ?_⟩, hrows ▸ List.prefix_append _ _⟩
    · intro t ht
      rw [← Option.some.inj ht, hrows, Chain.tip_concat, List.getLast?_concat, hcur, Option.map_some, hat]
      exact ⟨rfl, rfl⟩
    · intro q hq
      exact absurd hq (by simp)

/-- An appender continues the rows that a store once had and others behind them. -/
def Extends (es : List Entry) (a : Appender) (s : Scene Memory) : Prop :=
  InStep a s ∧ es <+: s.world.entries

private theorem extends_work {es : List Entry} (held : Bool) (n : Nat) (h : Extends es a s) :
    Extends es (work Memory.store held n a s).1 (work Memory.store held n a s).2 := by
  apply work_induction (P := Extends es) _ _ n h
  · intro b t ht
    obtain ⟨hn, he⟩ := inStep_takeNext ht.1
    exact ⟨hn, by rw [he]; exact ht.2⟩
  · intro p b t hb ht
    obtain ⟨hn, hp⟩ := inStep_commit hb ht.1
    exact ⟨hn, ht.2.trans hp⟩

end Appender

namespace Session

open Appender

/-- A session in which the appender continues the rows that a store once had. -/
def Extends (es : List Entry) (s : Session Memory) : Prop := Appender.Extends es s.appender s.scene

/-- Every move keeps the chain and the rows that it began with. -/
theorem extends_step {es : List Entry} (m : Move (List Fault)) {s : Session Memory} (h : Extends es s) :
    Extends es (step Memory.store Memory.strike m s) := by
  cases m with
  | start =>
    rw [step, after, Extends, Appender.start]
    split
    · exact h
    · split
      · exact h
      · obtain ⟨b, s', hb, he, -, ⟨f, hl⟩ | ⟨t, hl, -⟩⟩ := inStep_loadTip h.1
        · rw [hl]
          exact ⟨hb.of_samePlace ⟨rfl, rfl, rfl⟩ rfl, he ▸ h.2⟩
        · rw [hl]
          exact ⟨hb.of_samePlace ⟨rfl, rfl, rfl⟩ rfl, he ▸ h.2⟩
  | submit r =>
    obtain ⟨hs, hw⟩ := samePlace_submit r s.appender s.scene
    rw [step, after, Extends, Appender.Extends, hw]
    exact ⟨h.1.of_samePlace hs (congrArg Memory.entries hw), h.2⟩
  | cancel ticket => exact ⟨h.1.of_samePlace (samePlace_cancel ticket s.appender) rfl, h.2⟩
  | work n => exact extends_work false n h
  | close held timeout =>
    refine close_induction (P := Appender.Extends es) ?_ ?_ ?_ (fun n _ _ => extends_work held n) timeout h
    · exact fun a s ha => ⟨ha.1.of_samePlace ⟨rfl, rfl, rfl⟩ rfl, ha.2⟩
    · exact fun a s ha => ⟨ha.1.of_samePlace ⟨rfl, rfl, rfl⟩ rfl, ha.2⟩
    · exact fun a s watch ha => ha
  | outage faults => exact h
  | replace clock => exact ⟨h.1.takeOver, h.2⟩

theorem extends_run {es : List Entry} (moves : List (Move (List Fault))) {s : Session Memory}
    (h : Extends es s) : Extends es (run Memory.store Memory.strike moves s) :=
  run_induction (fun m _ hs => extends_step m hs) moves h

theorem extends_fresh (ids : IdSource) (clock : Clock) (watch : Watch) :
    Extends [] (fresh (Memory.empty ids) clock watch) :=
  ⟨⟨trivial, List.Pairwise.nil, fun _ ht => absurd ht (by simp [fresh, Appender.fresh]),
    fun _ hp => absurd hp (by simp [fresh, Appender.fresh])⟩, List.nil_prefix⟩

/-- A session that began on an empty store in memory, after moves. -/
def inMemory (ids : IdSource) (clock : Clock) (watch : Watch) (moves : List (Move (List Fault))) :
    Session Memory :=
  run Memory.store Memory.strike moves (fresh (Memory.empty ids) clock watch)

/-- Whatever happens to appenders on an empty store, its rows are in the order of their instants as
they were committed, each is linked to the one before it, and every range of them is found intact. -/
theorem rows_form_chain (ids : IdSource) (clock : Clock) (watch : Watch)
    (moves more : List (Move (List Fault))) :
    let m := (inMemory ids clock watch moves).scene.world
    m.entries <+: (inMemory ids clock watch (moves ++ more)).scene.world.entries ∧
      Ordered.sort m.entries = .ok m.entries ∧ Chain.IsIncreasing m.entries ∧
      Chain.Linked (.text genesisHash) m.entries ∧
      ∀ start finish u v : Instant, start.isAware = true → finish.isAware = true →
        start.toUtc = .ok u → finish.toUtc = .ok v → start.moment ≤ finish.moment →
        ∀ w : Watch, (Verifier.verify Memory.store none start finish (m.strike []) w).1 =
          .ok (.intact (Ordered.inRange start finish m.entries).length) := by
  intro m
  have h : Extends m.entries (inMemory ids clock watch moves) :=
    ⟨(extends_run moves (extends_fresh ids clock watch)).1, List.prefix_rfl⟩
  have hl : Chain.Linked (.text genesisHash) m.entries := h.1.linked
  have hi : Chain.IsIncreasing m.entries := h.1.increasing
  have hs : Ordered.sort m.entries = .ok m.entries :=
    Ordered.sort_of_isSorted (Chain.isAware_of_linked hl) hi.isSorted
  have hm : (inMemory ids clock watch (moves ++ more)) =
      run Memory.store Memory.strike more (inMemory ids clock watch moves) := List.foldl_append
  refine ⟨?_, hs, hi, hl, ?_⟩
  · rw [hm]
    exact (extends_run more h).2
  · intro start finish u v ha hb hu hv hle w
    have hk : Memory.store.Lists (m.strike []) m.entries := Memory.lists (m := m.strike []) rfl hs
    exact Verifier.verify_of_linked hk hl ha hb hle hu hv w

/-- A clock that stands still, an outage and a second appender: the rows of the first request and of
the last one are found intact. -/
theorem rows_form_chain_after_outage :
    let t : Instant := ⟨63900000000000000, some 0, by decide⟩
    let u : Instant := ⟨63900000000001000, some 0, by decide⟩
    let r : Request := ⟨.text (lit "login|ok"), .text (lit "auth"), .map [(.text (lit "n"), .int 1)], .null⟩
    let m := (inMemory (.ofNumbers []) (.scripted (.ok t) []) default [.submit r, .work 2,
      .outage [.outage (lit "disk")], .submit r, .work 2, .replace none, .submit r, .work 2]).scene.world
    m.entries.length = 2 ∧ m.entries.map (·.createdAt.moment) = [t.moment, u.moment] ∧
      (Verifier.verify Memory.store none t u (m.strike []) default).1 = .ok (.intact 2) := by
  intro t u r m
  have hv := (rows_form_chain (.ofNumbers []) (.scripted (.ok t) []) default [.submit r, .work 2,
    .outage [.outage (lit "disk")], .submit r, .work 2, .replace none, .submit r, .work 2] []).2.2.2.2
    t u t u rfl rfl (Instant.ofWall_eq_ok_iff.mpr ⟨rfl, rfl⟩) (Instant.ofWall_eq_ok_iff.mpr ⟨rfl, rfl⟩)
    (by decide) default
  have hd : m.entries.length = 2 ∧ m.entries.map (·.createdAt.moment) = [t.moment, u.moment] ∧
      (Ordered.inRange t u m.entries).length = 2 := by
    decide +kernel
  exact ⟨hd.1, hd.2.1, hd.2.2 ▸ hv⟩

end Session

end AuditTrail
