import AuditTrail.Proofs.Appender.SharpClocks
import AuditTrail.Proofs.Appender.Steps

/-!
# What appenders date

Appenders take over from each other on a store that gives back the dates it was given (`Almanac`). If their clocks give
instants of a kind that a millisecond more does not leave, every entry that they acknowledge is dated by such an instant,
and no two of those that are told apart by the same one (`Session.punctual_run`), whatever the requests are and whatever
fails. Nothing is asked of the requests here: it is enough that a commit acknowledges at most the entry that it stores.
-/

namespace AuditTrail

private theorem subperm_filterMap_set {α β : Type} (f : α → Option β) (xs : List α) (n : Nat) (x : α) :
    ((xs.set n x).filterMap f).Subperm ((f x).toList ++ xs.filterMap f) := by
  induction xs generalizing n with
  | nil => exact List.nil_subperm
  | cons z xs ih =>
    cases n with
    | zero =>
      have hx : (x :: xs).filterMap f = (f x).toList ++ xs.filterMap f := by
        rw [List.filterMap_cons]
        cases f x <;> rfl
      rw [List.set_cons_zero, hx]
      exact ((List.sublist_cons_self z xs).filterMap f).append_left _ |>.subperm
    | succ n =>
      have hz : ∀ ys : List α, (z :: ys).filterMap f = (f z).toList ++ ys.filterMap f := by
        intro ys
        rw [List.filterMap_cons]
        cases f z <;> rfl
      rw [List.set_cons_succ, hz, hz, ← List.append_assoc]
      have hmove := (List.subperm_append_left (f z).toList).mpr (ih n)
      rw [← List.append_assoc] at hmove
      exact hmove.trans (List.perm_append_comm.append_right _).subperm

/-- A store gives back the dates that it was given. It holds entries whose instants have a property, which a millisecond
more does not take away, and finds a last entry with such an instant, which is none before those that are found. A
creation keeps the draft's instant, or fails, and then nothing is held that was not before. -/
structure Almanac {W S : Type} (store : Store W) (strike : S → W → W) (p : Instant → Prop) (found : Nat → Prop)
    (holds : List Entry → W → Prop) : Prop where
  later : ∀ t u, p t → t.shift Duration.perMilli = .ok u → p u
  dated : ∀ {es w}, holds es w → ∀ e ∈ es, p e.createdAt
  strike : ∀ {es w} (o : S), holds es w → holds es (strike o w)
  findLast : ∀ {es w}, holds es w → holds es (store.findLast w).2 ∧ ∀ last, (store.findLast w).1 = .ok last →
    (∀ l, last = some l → p l.createdAt) ∧
      ∀ e ∈ es, found e.createdAt.wall → ∃ l, last = some l ∧ e.createdAt.moment ≤ l.createdAt.moment
  create : ∀ {es w}, holds es w → ∀ d : Draft, p d.createdAt →
    ((∃ f, (store.create d w).1 = .error f) ∧ holds es (store.create d w).2) ∨
      ∃ e, (store.create d w).1 = .ok e ∧ e.createdAt = d.createdAt ∧ holds (es ++ [e]) (store.create d w).2

/-- Two entries are dated by different moments, if their instants are to be told apart. -/
def Entry.Apart (told : Nat → Prop) (e f : Entry) : Prop :=
  told e.createdAt.wall → told f.createdAt.wall → e.createdAt.moment ≠ f.createdAt.moment

private theorem Entry.Apart.symm {told : Nat → Prop} {e f : Entry} (h : Apart told e f) : Apart told f e :=
  fun hf he => (h he hf).symm

namespace Appender

variable {W S : Type} {store : Store W} {strike : S → W → W} {p : Instant → Prop} {found told : Nat → Prop}
  {holds : List Entry → W → Prop} {past es : List Entry} {a b : Appender} {s t : Scene W}

/-- Before the writer is started it has done nothing. -/
def Idles (a : Appender) : Prop := a.started = false → a.tip = none ∧ a.admitted = none ∧ ∀ i ∈ a.queue, i = .stop

/-- The store holds the entries that were acknowledged, before this appender and by it, and others. An appender that
knows a tip has a last instant that is not before any of them that are told apart; one that knows none can find them. -/
structure Punctual (p : Instant → Prop) (found told : Nat → Prop) (holds : List Entry → W → Prop) (past es : List Entry)
    (a : Appender) (s : Scene W) : Prop where
  clock : s.clock.Gives p
  lastAt : ∀ l, a.lastAt = some l → p l
  idle : a.Idles
  held : holds es s.world
  kept : past ++ a.acknowledged ⊆ es
  known : a.tip.isSome = true ∨ a.admitted.isSome = true → ∀ e ∈ es, told e.createdAt.wall →
    ∃ l, a.lastAt = some l ∧ e.createdAt.moment ≤ l.moment
  unknown : a.tip = none → ∀ e ∈ es, told e.createdAt.wall → found e.createdAt.wall
  apart : (past ++ a.acknowledged).Pairwise (Entry.Apart told)

private theorem acknowledged_settleTicket (a : Appender) (n : Nat) (o : Outcome) :
    (a.settleTicket n o).acknowledged.Subperm (o.entry?.toList ++ a.acknowledged) :=
  subperm_filterMap_set Outcome.entry? a.outcomes n o

private theorem acknowledged_failAdmitted (f : Fault) (q : Admitted) (a : Appender) (s : Scene W) :
    (failAdmitted f q a s).1.acknowledged.Subperm a.acknowledged := by
  rw [failAdmitted]
  split
  · exact .refl _
  · exact acknowledged_settleTicket { a with admitted := none } q.ticket (.failed f)

private theorem acknowledged_cancel (n : Nat) (a : Appender) : (a.cancel n).2.acknowledged.Subperm a.acknowledged := by
  rw [cancel]
  split
  · exact acknowledged_settleTicket a n .cancelled
  · exact .refl _
  · exact .refl _

private theorem acknowledged_submit (r : Request) (a : Appender) (s : Scene W) :
    (submit r (a, s)).2.1.acknowledged = a.acknowledged := by
  have hadd : ∀ {o : Outcome}, o.entry? = none → (a.outcomes ++ [o]).filterMap Outcome.entry? = a.acknowledged := by
    intro o ho
    rw [List.filterMap_append, List.filterMap_cons_none ho]
    exact List.append_nil _
  rcases submit_cases r a s with ⟨q, -, -, he⟩ | he | ⟨f, he⟩
  · rw [he]
    exact hadd rfl
  · rw [he]
  · rw [he]
    exact hadd rfl

private theorem clock_submit (r : Request) (a : Appender) (s : Scene W) : (submit r (a, s)).2.2.clock = s.clock := by
  rw [submit]
  split
  · split <;> rfl
  · rfl
  · split <;> rfl

theorem clock_failAdmitted (f : Fault) (q : Admitted) (a : Appender) (s : Scene W) :
    (failAdmitted f q a s).2.clock = s.clock := by
  rw [failAdmitted]
  split <;> rfl

namespace Idles

private theorem failAdmitted (h : a.Idles) (f : Fault) (q : Admitted) (s : Scene W) :
    (Appender.failAdmitted f q a s).1.Idles := by
  have hsame := (samePlace_failAdmitted f q a s).1
  have hqueue : (Appender.failAdmitted f q a s).1.queue = a.queue ∧
      (Appender.failAdmitted f q a s).1.started = a.started := by
    rw [Appender.failAdmitted]
    split <;> exact ⟨rfl, rfl⟩
  intro hs
  rw [hsame.tip, hsame.admitted, hqueue.1]
  obtain ⟨ht, -, hq⟩ := h (hqueue.2.symm.trans hs)
  exact ⟨ht, rfl, hq⟩

private theorem submit (h : a.Idles) (r : Request) (s : Scene W) : (Appender.submit r (a, s)).2.1.Idles := by
  rcases submit_cases r a s with ⟨q, -, -, he⟩ | he | ⟨f, he⟩
  · rw [he]
    exact fun hs => absurd hs (by simp)
  · rw [he]
    exact h
  · rw [he]
    exact h

private theorem cancel (h : a.Idles) (n : Nat) : (a.cancel n).2.Idles := by
  rw [Appender.cancel]
  split <;> exact h

private theorem started (h : a.Idles) {n : Nat} {r : Request} {rest : List Item} (hq : a.queue = .request n r :: rest) :
    a.started = true := by
  by_contra hs
  have hstop := (h (Bool.not_eq_true _ ▸ hs)).2.2 (.request n r) (by rw [hq]; exact List.mem_cons_self)
  exact absurd hstop (by simp)

private theorem of_started (h : a.started = true) : a.Idles := fun hs => absurd (h.symm.trans hs) (by decide)

end Idles

namespace Punctual

private theorem of_place (h : Punctual p found told holds past es a s) (htip : b.tip = a.tip)
    (hlast : b.lastAt = a.lastAt)
    (hhand : b.admitted.isSome = true → a.tip.isSome = true ∨ a.admitted.isSome = true) (hidle : b.Idles)
    (hack : b.acknowledged.Subperm a.acknowledged) (hclock : t.clock = s.clock) (hworld : holds es t.world) :
    Punctual p found told holds past es b t where
  clock := hclock ▸ h.clock
  lastAt := hlast ▸ h.lastAt
  idle := hidle
  held := hworld
  kept := fun _ he => h.kept (((List.subperm_append_left past).mpr hack).subset he)
  known hb := by
    rw [hlast]
    exact h.known (hb.elim (fun ht => .inl (htip ▸ ht)) hhand)
  unknown := htip ▸ h.unknown
  apart := by
    obtain ⟨xs, hperm, hsub⟩ := (List.subperm_append_left past).mpr hack
    exact (hperm.pairwise_iff Entry.Apart.symm).mp (h.apart.sublist hsub)

/-- The writer that finds the last entry knows all that are told apart. -/
private theorem resume (C : Almanac store strike p found holds) (h : Punctual p found told holds past es a s)
    (ht : a.tip = none) {last : Option Entry} {w : W} (hf : store.findLast s.world = (.ok last, w))
    (hlast : b.lastAt = last.map Entry.createdAt) (hidle : b.Idles) (hack : b.acknowledged = a.acknowledged) :
    Punctual p found told holds past es b { s with world := w } := by
  obtain ⟨hw, hfound⟩ := C.findLast h.held
  rw [hf] at hw hfound
  obtain ⟨hdated, hall⟩ := hfound last rfl
  refine ⟨h.clock, ?_, hidle, hw, hack ▸ h.kept, ?_, fun _ => h.unknown ht, hack ▸ h.apart⟩
  · intro l hl
    obtain ⟨e, rfl, rfl⟩ := Option.map_eq_some_iff.mp (hlast.symm.trans hl)
    exact hdated e rfl
  · intro _ e he htold
    obtain ⟨l, rfl, hle⟩ := hall e he (h.unknown ht e he htold)
    exact ⟨l.createdAt, hlast, hle⟩

private theorem unanswered (C : Almanac store strike p found holds) (h : Punctual p found told holds past es a s)
    {f : Fault} {w : W} (hf : store.findLast s.world = (.error f, w)) :
    Punctual p found told holds past es a { s with world := w } := by
  obtain ⟨hw, -⟩ := C.findLast h.held
  rw [hf] at hw
  exact h.of_place rfl rfl .inr h.idle (.refl _) rfl hw

private theorem fail (h : Punctual p found told holds past es a s) (f : Fault) (q : Admitted) :
    Punctual p found told holds past es (failAdmitted f q a s).1 (failAdmitted f q a s).2 := by
  obtain ⟨hsame, hworld⟩ := samePlace_failAdmitted f q a s
  refine h.of_place hsame.tip hsame.lastAt ?_ (h.idle.failAdmitted f q s) (acknowledged_failAdmitted f q a s)
    (clock_failAdmitted f q a s) (hworld ▸ h.held)
  rw [hsame.admitted]
  exact fun hn => absurd hn (by simp)

private theorem takeNext (C : Almanac store strike p found holds) (h : Punctual p found told holds past es a s) :
    Punctual p found told holds past es (Appender.takeNext store a s).1 (Appender.takeNext store a s).2 := by
  cases hq : a.queue with
  | nil =>
    rw [Appender.takeNext, hq]
    exact h
  | cons item rest =>
    have hrest : ∀ {b : Appender}, b.queue = rest → b.tip = a.tip → b.admitted = a.admitted → b.started = a.started →
        b.Idles := by
      intro b hqueue htip hadmitted hstarted hs
      obtain ⟨ht, hp, hstop⟩ := h.idle (hstarted.symm.trans hs)
      refine ⟨htip.trans ht, hadmitted.trans hp, ?_⟩
      rw [hqueue]
      exact fun i hi => hstop i (by rw [hq]; exact List.mem_cons_of_mem item hi)
    cases item with
    | stop =>
      rw [takeNext_stop hq]
      exact h.of_place rfl rfl .inr (hrest rfl rfl rfl rfl) (.refl _) rfl h.held
    | request n r =>
      by_cases hc : a.outcomes[n]? = some .cancelled
      · rw [takeNext_cancelled hq hc]
        exact h.of_place rfl rfl .inr (hrest rfl rfl rfl rfl) (.refl _) rfl h.held
      · have hstarted : a.started = true := h.idle.started hq
        have hrun : (a.holding n rest).acknowledged.Subperm a.acknowledged :=
          acknowledged_settleTicket { a with queue := rest } n .running
        have hholding : Punctual p found told holds past es (a.holding n rest) s :=
          h.of_place rfl rfl .inr (.of_started hstarted) hrun rfl h.held
        cases ht : a.tip with
        | some t =>
          rw [takeNext_of_tip hq hc ht]
          exact hholding.of_place rfl rfl (fun _ => .inl (by rw [show (a.holding n rest).tip = some t from ht]; rfl))
            (.of_started hstarted) (.refl _) rfl h.held
        | none =>
          rcases takeNext_of_no_tip hq hc ht s with ⟨f, w, hf, he⟩ | ⟨last, w, hf, he⟩
          · rw [he]
            exact (hholding.unanswered C hf).fail f _
          · rw [he]
            exact hholding.resume C ht hf rfl (.of_started hstarted) rfl

private theorem stampAfter (C : Almanac store strike p found holds) (h : Punctual p found told holds past es a s)
    {reading at' : Instant} (hn : s.clock.now.1 = .ok reading) (hs : Appender.stampAfter a.lastAt reading = .ok at') :
    p at' := by
  have hreading := h.clock.now hn
  cases hl : a.lastAt with
  | none =>
    rw [hl] at hs
    exact Except.ok.inj hs ▸ hreading
  | some l =>
    rw [hl, Appender.stampAfter, Fault.bind_eq_ok_iff] at hs
    obtain ⟨late, -, hs⟩ := hs
    cases late with
    | true =>
      rw [if_pos rfl] at hs
      exact C.later l at' (h.lastAt l hl) hs
    | false =>
      obtain rfl : reading = at' := Except.ok.inj hs
      exact hreading

private theorem commit (C : Almanac store strike p found holds) {q : Admitted} (ha : a.admitted = some q)
    (h : Punctual p found told holds past es a s) : ∃ es',
      Punctual p found told holds past es' (Appender.commit store q a s).1 (Appender.commit store q a s).2 := by
  have hheld : a.tip.isSome = true ∨ a.admitted.isSome = true := .inr (by rw [ha]; rfl)
  have hstarted : a.started = true := by
    by_contra hs
    have hnone := (h.idle (Bool.not_eq_true _ ▸ hs)).2.1
    rw [ha] at hnone
    exact absurd hnone (by simp)
  have hlater : Punctual p found told holds past es a { s with clock := s.clock.now.2 } :=
    ⟨h.clock.later, h.lastAt, h.idle, h.held, h.kept, h.known, h.unknown, h.apart⟩
  rcases commit_eq store q a s with ⟨f, w, hc, hw⟩ | ⟨reading, hash, d, e, w, hn, hl, hstore, hc⟩
  · have hworld : holds es w := by
      rcases hw with rfl | ⟨reading, hash, d, hn, hl, hstore⟩
      · exact h.held
      · have hcreate := C.create h.held d (h.stampAfter C hn (link_eq_ok hl).2.1)
        rw [hstore] at hcreate
        rcases hcreate with ⟨-, hw⟩ | ⟨e, he, -⟩
        · exact hw
        · exact absurd he (by simp)
    rw [hc]
    exact ⟨es, (hlater.of_place (t := { s with clock := s.clock.now.2, world := w }) rfl rfl .inr h.idle (.refl _) rfl
      hworld).fail f q⟩
  · have hstamp := (link_eq_ok hl).2.1
    have hcreate := C.create h.held d (h.stampAfter C hn hstamp)
    rw [hstore] at hcreate
    rcases hcreate with ⟨⟨f, hf⟩, -⟩ | ⟨e', he, hat, hworld⟩
    · exact absurd hf (by simp)
    obtain rfl : e = e' := Except.ok.inj he
    -- All that are told apart are before the last instant, and the new entry is after it.
    have hbefore : ∀ f ∈ es, told f.createdAt.wall → f.createdAt.moment < e.createdAt.moment := by
      intro f hf htold
      obtain ⟨l, hlast, hle⟩ := h.known hheld f hf htold
      have hlt := lt_of_stampAfter hstamp hlast
      rw [hat]
      omega
    have hack : (past ++ (storeAdmitted q d hash e a { s with clock := s.clock.now.2, world := w }).1.acknowledged).Subperm
        (e :: (past ++ a.acknowledged)) := by
      have hset := acknowledged_settleTicket
        { a with admitted := none, tip := some (.text hash), lastAt := some d.createdAt } q.ticket (.stored e)
      exact ((List.subperm_append_left past).mpr hset).trans List.perm_middle.subperm
    rw [hc]
    refine ⟨es ++ [e], h.clock.later, ?_, .of_started hstarted, hworld, ?_, ?_, fun ht => absurd ht (by simp [storeAdmitted]),
      ?_⟩
    · intro l hlast
      rw [← Option.some.inj hlast, ← hat]
      exact C.dated hworld e List.mem_concat_self
    · intro f hf
      rcases List.mem_cons.mp (hack.subset hf) with rfl | hm
      · exact List.mem_concat_self
      · exact List.mem_append_left _ (h.kept hm)
    · intro _ f hf htold
      refine ⟨d.createdAt, rfl, ?_⟩
      rw [← hat]
      rcases List.mem_append.mp hf with hm | hm
      · exact Int.le_of_lt (hbefore f hm htold)
      · rw [List.mem_singleton.mp hm]
    · obtain ⟨xs, hperm, hsub⟩ := hack
      refine (hperm.pairwise_iff Entry.Apart.symm).mp (List.Pairwise.sublist hsub ?_)
      refine List.pairwise_cons.mpr ⟨?_, h.apart⟩
      intro f hf _ htold
      have := hbefore f (h.kept hf) htold
      omega

private theorem work (C : Almanac store strike p found holds) (held : Bool) (n : Nat)
    (h : Punctual p found told holds past es a s) : ∃ es',
      Punctual p found told holds past es' (Appender.work store held n a s).1 (Appender.work store held n a s).2 :=
  work_induction (P := fun a s => ∃ es, Punctual p found told holds past es a s)
    (fun _ _ ⟨es, h⟩ => ⟨es, h.takeNext C⟩) (fun _ _ _ ha ⟨_, h⟩ => h.commit C ha) n ⟨es, h⟩

private theorem start (C : Almanac store strike p found holds) (h : Punctual p found told holds past es a s) :
    Punctual p found told holds past es (Appender.start store (a, s)).2.1 (Appender.start store (a, s)).2.2 := by
  rw [Appender.start]
  split
  · exact h
  · split
    · exact h
    · next hs =>
      have ht : a.tip = none := (h.idle (Bool.not_eq_true _ ▸ hs)).1
      rcases loadTip_cases store a s with ⟨f, w, hf, hl⟩ | ⟨last, w, hf, hl⟩
      · rw [hl]
        exact (h.unanswered C hf).of_place rfl rfl .inr (.of_started rfl) (.refl _) rfl
          (h.unanswered C hf).held
      · rw [hl]
        have hresumed := h.resume C ht hf (b := { a with
          tip := (Chain.expectedAfter last).nonNull?, lastAt := last.map Entry.createdAt, started := true }) rfl
          (.of_started rfl) rfl
        exact hresumed.of_place rfl rfl .inr (.of_started rfl) (.refl _) rfl hresumed.held

private theorem close (C : Almanac store strike p found holds) (held : Bool) (timeout : Option Int)
    (h : Punctual p found told holds past es a s) : ∃ es', Punctual p found told holds past es'
      (Appender.close store held timeout (a, s)).2.1 (Appender.close store held timeout (a, s)).2.2 := by
  refine close_induction (P := fun a s => ∃ es, Punctual p found told holds past es a s) ?_ ?_ ?_
    (fun n _ _ ⟨_, h⟩ => h.work C held n) timeout ⟨es, h⟩
  · exact fun a s ⟨es, h⟩ => ⟨es, h.of_place rfl rfl .inr h.idle (.refl _) rfl h.held⟩
  · rintro a s ⟨es, h⟩
    refine ⟨es, h.of_place rfl rfl .inr ?_ (.refl _) rfl h.held⟩
    intro hs
    obtain ⟨ht, hp, hstop⟩ := h.idle hs
    refine ⟨ht, hp, ?_⟩
    exact List.forall_mem_append.mpr ⟨hstop, List.forall_mem_singleton.mpr rfl⟩
  · exact fun a s watch ⟨es, h⟩ => ⟨es, h.of_place rfl rfl .inr h.idle (.refl _) rfl h.held⟩

end Punctual

end Appender

/-- The clock of a fresh appender is of a kind, and all entries that are told apart can be found by it. -/
def Move.IsPunctual {S : Type} (p : Instant → Prop) (found told : Nat → Prop) : Move S → Prop
  | .replace clock => (∀ c, clock = some c → c.Gives p) ∧ ∀ wall, told wall → found wall
  | _ => True

namespace Session

open Appender

variable {W S : Type} {store : Store W} {strike : S → W → W} {p : Instant → Prop} {found told : Nat → Prop}
  {holds : List Entry → W → Prop} {past es : List Entry}

private theorem punctual_step (C : Almanac store strike p found holds) {m : Move S} (hm : m.IsPunctual p found told)
    {s : Session W} (h : Punctual p found told holds past es s.appender s.scene) : ∃ es',
      Punctual p found told holds (past ++ s.retired m) es' (step store strike m s).appender
        (step store strike m s).scene := by
  have keep : ∀ {es' : List Entry} {b : Appender} {t : Scene W}, Punctual p found told holds past es' b t →
      ∃ es', Punctual p found told holds (past ++ []) es' b t := fun hb => ⟨_, by rwa [List.append_nil]⟩
  cases m with
  | replace clock =>
    obtain ⟨hclock, hfound⟩ := hm
    have hnone : past ++ s.retired (.replace clock : Move S) ++ (step store strike (.replace clock) s).appender.acknowledged =
        past ++ s.appender.acknowledged := List.append_nil _
    refine ⟨es, ?_, fun l hl => absurd hl (by simp [step, Appender.fresh]), ?_, h.held, ?_, ?_, ?_, ?_⟩
    · cases clock with
      | none => exact h.clock
      | some c => exact hclock c rfl
    · exact fun _ => ⟨rfl, rfl, fun i hi => absurd hi List.not_mem_nil⟩
    · rw [hnone]
      exact h.kept
    · exact fun hh => hh.elim (fun ht => absurd ht (by simp [step, Appender.fresh]))
        (fun hp => absurd hp (by simp [step, Appender.fresh]))
    · exact fun _ e _ => hfound e.createdAt.wall
    · rw [hnone]
      exact h.apart
  | start => exact keep (h.start C)
  | submit r =>
    obtain ⟨hplace, hworld⟩ := samePlace_submit r s.appender s.scene
    refine keep (h.of_place hplace.tip hplace.lastAt ?_ ?_ ?_ (clock_submit r s.appender s.scene) (hworld ▸ h.held))
    · exact fun hp => .inr (hplace.admitted ▸ hp)
    · exact h.idle.submit r s.scene
    · exact (acknowledged_submit r s.appender s.scene).symm ▸ .refl _
  | cancel ticket =>
    have hplace := samePlace_cancel ticket s.appender
    refine keep (h.of_place hplace.tip hplace.lastAt ?_ (h.idle.cancel ticket) (acknowledged_cancel ticket s.appender) rfl
      h.held)
    exact fun hp => .inr (hplace.admitted ▸ hp)
  | work n =>
    obtain ⟨es', h'⟩ := h.work C false n
    exact keep h'
  | close held timeout =>
    obtain ⟨es', h'⟩ := h.close C held timeout
    exact keep h'
  | outage o => exact keep (h.of_place rfl rfl .inr h.idle (.refl _) rfl (C.strike o h.held))

/-- After a run, the store holds the entries that were acknowledged, and those that are told apart have different
moments. -/
theorem punctual_run (C : Almanac store strike p found holds) (moves : List (Move S)) :
    ∀ {past es : List Entry} {s : Session W}, (∀ m ∈ moves, m.IsPunctual p found told) →
      Punctual p found told holds past es s.appender s.scene →
      ∃ es', holds es' (run store strike moves s).scene.world ∧ past ++ acknowledged store strike moves s ⊆ es' ∧
        (past ++ acknowledged store strike moves s).Pairwise (Entry.Apart told) := by
  induction moves with
  | nil => exact fun _ h => ⟨_, h.held, h.kept, h.apart⟩
  | cons m rest ih =>
    intro past es s hm h
    obtain ⟨es', h'⟩ := punctual_step C (hm m List.mem_cons_self) h
    have hrest := ih (fun n hn => hm n (List.mem_cons_of_mem m hn)) h'
    rw [List.append_assoc] at hrest
    exact hrest

theorem punctual_fresh {w : W} (hw : holds [] w) {clock : Clock} (hc : clock.Gives p) (watch : Watch) :
    Punctual p found told holds [] [] (fresh w clock watch).appender (fresh w clock watch).scene where
  clock := hc
  lastAt _ hl := absurd hl (by simp [fresh, Appender.fresh])
  idle _ := ⟨rfl, rfl, fun _ hi => absurd hi List.not_mem_nil⟩
  held := hw
  kept := List.Subset.refl _
  known _ _ he := absurd he List.not_mem_nil
  unknown _ _ he := absurd he List.not_mem_nil
  apart := .nil

end Session

end AuditTrail
